import TekLang.Proofs.Grammar.Production

/-!
# Readers and the items they take

A reader that starts at the beginning of a thing `Follows` a description of it, and one that starts
behind the first items of a phrase `Completes` it. The parts that all readers are put together from
have one lemma each here, and `Completes.bind` puts the lemmas together the same way.
-/

namespace TekLang

namespace Reads

/-- Items make a phrase. -/
theorem node {phrase : Phrase} {items : List Item} {c c₁ : Cursor} {span : Span}
    {form : Form Node} (within : Reads items c c₁)
    (made : Production phrase items c.upcoming c₁.last span form) :
    Reads [.part phrase ⟨c₁.nextId, span, form⟩] c c₁.numbered :=
  .part rfl made within (.nil _) .none (.nil _)

/-- Items and the end of a line behind them make a phrase. -/
theorem statement {phrase : Phrase} {items closing : List Item} {c c₁ c₂ : Cursor} {span : Span}
    {form : Form Node} (within : Reads items c c₁) (closed : Reads closing c₁ c₂)
    (ends : Ending closing) (made : Production phrase items c.upcoming c₁.last span form) :
    Reads [.part phrase ⟨c₂.nextId, span, form⟩] c c₂.numbered :=
  .part rfl made within closed ends (.nil _)

theorem single {t : Token} {rest : List Token} {c : Cursor} (ahead : c.rest = t :: rest) :
    Reads [.word t] c (c.behind t rest) := .word ahead (.nil _)

end Reads

/-- Every phrase has an item. -/
theorem Production.ne_nil {phrase : Phrase} {items : List Item} {first last : Token} {span : Span}
    {form : Form Node} (made : Production phrase items first last span form) : items ≠ [] := by
  cases made <;> exact List.cons_ne_nil _ _

namespace Reads

theorem rest_le {items : List Item} {c c' : Cursor} (reads : Reads items c c') :
    c'.rest.length ≤ c.rest.length := by
  induction reads with
  | nil => exact Nat.le_refl _
  | word ahead _ ih =>
    rw [ahead, List.length_cons]
    exact Nat.le_succ_of_le ih
  | part begins made within closed ends others within_le closed_le others_le =>
    exact Nat.le_trans others_le (Nat.le_trans closed_le within_le)

/-- Every item takes a token. -/
theorem rest_lt {items : List Item} {c c' : Cursor} (reads : Reads items c c')
    (some : items ≠ []) : c'.rest.length < c.rest.length := by
  induction reads with
  | nil => exact absurd rfl some
  | word ahead others =>
    rw [ahead, List.length_cons]
    exact Nat.lt_succ_of_le others.rest_le
  | part begins made within closed ends others within_lt =>
    exact Nat.lt_of_le_of_lt others.rest_le
      (Nat.lt_of_le_of_lt closed.rest_le (within_lt made.ne_nil))

end Reads

namespace Parser

variable {α : Type}

/-- What the parser gives is what the items that it takes mean. -/
def Follows (p : Parser α) (Means : α → List Item → Prop) : Prop :=
  ∀ c a c', p c = .ok a c' → ∃ items, Means a items ∧ Reads items c c'

/-- Behind the items `before` the parser completes a phrase. -/
def Completes (before : List Item) (phrase : Phrase) (p : Parser Node) : Prop :=
  ∀ c₀ c n c', Reads before c₀ c → p c = .ok n c' → Reads [.part phrase n] c₀ c'

theorem not_fail_ok {fault : SyntaxFault} {c c' : Cursor} {a : α} :
    fail fault c ≠ (.ok a c' : EStateM.Result ..) := by
  intro run
  cases run

theorem advance_reads {c c' : Cursor} {t : Token} {kind : TokenKind}
    (run : advance c = .ok t c') (next : c.nextKind = kind) (word : kind ≠ .eof) :
    t.kind = kind ∧ Reads [.word t] c c' := by
  cases ahead : c.rest with
  | nil => exact absurd (next.symm.trans (Cursor.nextKind_of_rest_nil ahead)) word
  | cons u rest =>
    rw [advance_of_rest_cons ahead] at run
    cases run
    exact ⟨(Cursor.nextKind_of_rest_cons ahead).symm.trans next, .single ahead⟩

theorem accept_ok {c c' : Cursor} {kind : TokenKind} {b : Bool} (run : accept kind c = .ok b c')
    (word : kind ≠ .eof) :
    (b = true ∧ ∃ t, t.kind = kind ∧ Reads [.word t] c c') ∨
      (b = false ∧ c' = c ∧ c.nextKind ≠ kind) := by
  unfold accept at run
  rw [bind_of_ok (nextKind_apply c)] at run
  split at run
  · rename_i next
    obtain ⟨t, c₁, taken, done⟩ := bind_eq_ok.1 run
    cases done
    obtain ⟨same, reads⟩ := advance_reads taken next word
    exact .inl ⟨rfl, t, same, reads⟩
  · rename_i other
    cases run
    exact .inr ⟨rfl, rfl, other⟩

theorem expectAs_follows {kind : TokenKind} (word : kind ≠ .eof) (wanted : Wanted)
    (setting : Setting) : Follows (expectAs kind wanted setting) (IsWord kind) := by
  intro c t c' run
  unfold expectAs at run
  rw [bind_of_ok (nextKind_apply c)] at run
  split at run
  · rename_i next
    obtain ⟨same, reads⟩ := advance_reads run next word
    exact ⟨_, .mk same, reads⟩
  · exact absurd run not_fail_ok

theorem expect_follows {kind : TokenKind} (word : kind ≠ .eof) (setting : Setting) :
    Follows (expect kind setting) (IsWord kind) := expectAs_follows word _ _

theorem expectName_follows (setting : Setting) :
    Follows (expectName setting) (IsWord .identifier) := expectAs_follows (by decide) _ _

theorem optional_follows {mark : TokenKind} {item : Parser α} {Means : α → List Item → Prop}
    (word : mark ≠ .eof) (follows : Follows item Means) :
    Follows (optional mark item) (Optionally mark Means) := by
  intro c a c' run
  unfold Parser.optional at run
  obtain ⟨b, c₁, taken, run₁⟩ := bind_eq_ok.1 run
  rcases accept_ok taken word with ⟨rfl, t, marked, reads⟩ | ⟨rfl, rfl, -⟩
  · obtain ⟨a, c₂, found, done⟩ := bind_eq_ok.1 run₁
    cases done
    obtain ⟨items, means, more⟩ := follows _ _ _ found
    exact ⟨_, .some marked means, reads.append more⟩
  · cases run₁
    exact ⟨[], .none, .nil _⟩

theorem optionalList_follows {mark : TokenKind} {list : Parser (List Node)}
    {Means : List Node → List Item → Prop} (word : mark ≠ .eof) (follows : Follows list Means) :
    Follows (optionalList mark list) (ListAfter mark Means) := by
  intro c ns c' run
  unfold optionalList at run
  obtain ⟨b, c₁, taken, run₁⟩ := bind_eq_ok.1 run
  rcases accept_ok taken word with ⟨rfl, t, marked, reads⟩ | ⟨rfl, rfl, -⟩
  · obtain ⟨items, means, more⟩ := follows _ _ _ run₁
    exact ⟨_, .some marked means, reads.append more⟩
  · cases run₁
    exact ⟨[], .none, .nil _⟩

theorem itemsAfter_follows {mark : TokenKind} {item : Parser α} {Means : α → List Item → Prop}
    (word : mark ≠ .eof) (follows : Follows item Means) (loop : List Token) :
    Follows (itemsAfter mark item loop) (EachAfter mark Means) := by
  induction loop with
  | nil =>
    intro c as c' run
    cases run
    exact ⟨[], .nil, .nil _⟩
  | cons round loop ih =>
    intro c as c' run
    unfold itemsAfter at run
    obtain ⟨b, c₁, taken, run₁⟩ := bind_eq_ok.1 run
    rcases accept_ok taken word with ⟨rfl, t, marked, reads⟩ | ⟨rfl, rfl, -⟩
    · obtain ⟨a, c₂, found, run₂⟩ := bind_eq_ok.1 run₁
      obtain ⟨others, c₃, rest, done⟩ := bind_eq_ok.1 run₂
      cases done
      obtain ⟨items, means, first⟩ := follows _ _ _ found
      obtain ⟨more, each, second⟩ := ih _ _ _ rest
      exact ⟨_, .cons marked means each, reads.append (first.append second)⟩
    · cases run₁
      exact ⟨[], .nil, .nil _⟩

theorem eachAfter_follows {mark : TokenKind} {item : Parser α} {Means : α → List Item → Prop}
    (word : mark ≠ .eof) (follows : Follows item Means) :
    Follows (eachAfter mark item) (EachAfter mark Means) :=
  fun c as c' run => itemsAfter_follows word follows c.rest c as c' run

theorem unlessAtEnd_follows {item : Parser α} {Means : α → List Item → Prop}
    (follows : Follows item Means) (wanted : Wanted) : Follows (unlessAtEnd wanted item) Means := by
  intro c a c' run
  unfold unlessAtEnd at run
  rw [bind_of_ok (atEnd_apply c)] at run
  cases ended : c.rest.isEmpty with
  | true =>
    rw [ended, if_pos rfl] at run
    exact absurd run not_fail_ok
  | false =>
    rw [ended] at run
    exact follows _ _ _ run

theorem Follows.reads {item : Parser Node} {phrase : Phrase}
    (follows : Follows item (IsPart phrase)) {c c' : Cursor} {n : Node}
    (run : item c = .ok n c') : Reads [.part phrase n] c c' := by
  obtain ⟨items, ⟨_⟩, reads⟩ := follows _ _ _ run
  exact reads

section Loops

variable {item : Parser Node} {phrase : Phrase} {close : TokenKind} {separator : Parser Unit}

/-- The loop over items read as a relation: what `Gap` allows stands behind each item. -/
inductive Rounds (phrase : Phrase) (close : TokenKind) (Gap : Cursor → Cursor → Prop) :
    List Node → Cursor → Cursor → Prop
  | close {t c c'} (closes : t.kind = close) (reads : Reads [.word t] c c') :
    Rounds phrase close Gap [] c c'
  | item {n ns c c₁ c₂ c'} (goesOn : c.nextKind ≠ close) (first : Reads [.part phrase n] c c₁)
    (gap : Gap c₁ c₂) (others : Rounds phrase close Gap ns c₂ c') :
    Rounds phrase close Gap (n :: ns) c c'

/-- The loop has enough rounds as long as it has one for each token that is left. -/
theorem itemsUntil_rounds (word : close ≠ .eof) (follows : Follows item (IsPart phrase))
    (forward : ∀ c c', separator c = .ok () c' → c'.rest.length ≤ c.rest.length)
    (loop : List Token) {c c' : Cursor} {ns : List Node} (enough : c.rest.length ≤ loop.length)
    (run : itemsUntil close item separator loop c = .ok ns c') :
    Rounds phrase close (fun c c' => separator c = .ok () c') ns c c' := by
  induction loop generalizing c c' ns with
  | nil =>
    obtain ⟨n, c₁, found, -⟩ := bind_eq_ok.1 run
    have less := (follows.reads found).rest_lt (List.cons_ne_nil _ _)
    exact absurd (Nat.lt_of_lt_of_le less enough) (Nat.not_lt_zero _)
  | cons round loop ih =>
    unfold itemsUntil at run
    obtain ⟨b, c₁, taken, run₁⟩ := bind_eq_ok.1 run
    rcases accept_ok taken word with ⟨rfl, t, closes, reads⟩ | ⟨rfl, rfl, goesOn⟩
    · cases run₁
      exact .close closes reads
    · obtain ⟨n, c₂, found, run₂⟩ := bind_eq_ok.1 run₁
      obtain ⟨_, c₃, skipped, run₃⟩ := bind_eq_ok.1 run₂
      obtain ⟨others, c₄, rest, done⟩ := bind_eq_ok.1 run₃
      cases done
      have first := follows.reads found
      have less := first.rest_lt (List.cons_ne_nil _ _)
      have behind := forward _ _ skipped
      rw [List.length_cons] at enough
      have enough : c₃.rest.length ≤ loop.length := by omega
      exact .item goesOn first skipped (ih enough rest)

theorem sequence_follows (word : close ≠ .eof) (follows : Follows item (IsPart phrase)) :
    Follows (sequence close item)
      fun ns items => ∃ t, t.kind = close ∧ items = parts phrase ns ++ [.word t] := by
  intro c ns c' run
  have forward : ∀ c c', (pure () : Parser Unit) c = .ok () c' →
      c'.rest.length ≤ c.rest.length := by
    intro c c' skipped
    cases skipped
    exact Nat.le_refl _
  have rounds := itemsUntil_rounds word follows forward c.rest (Nat.le_refl _) run
  clear run
  induction rounds with
  | close closes reads => exact ⟨_, ⟨_, closes, rfl⟩, reads⟩
  | item goesOn first gap others ih =>
    cases gap
    obtain ⟨items, ⟨t, closes, rfl⟩, reads⟩ := ih
    exact ⟨_, ⟨t, closes, rfl⟩, first.append reads⟩

theorem commaSequence_follows (word : close ≠ .eof) (follows : Follows item (IsPart phrase))
    (setting : Setting) : Follows (commaSequence close setting item) (Listed phrase close) := by
  intro c ns c' run
  -- Behind an item the list either closes or goes on with a comma.
  have separated : ∀ c c', (do
      if (← nextKind) ≠ close then
        let _ ← expectAs .comma (.either .comma close) setting : Parser Unit) c = .ok () c' →
      (c' = c ∧ c.nextKind = close) ∨ ∃ t, t.kind = .comma ∧ Reads [.word t] c c' := by
    intro c c' skipped
    rw [bind_of_ok (nextKind_apply c)] at skipped
    by_cases ended : c.nextKind = close
    · rw [if_neg (not_not_intro ended)] at skipped
      cases skipped
      exact .inl ⟨rfl, ended⟩
    · rw [if_pos ended] at skipped
      obtain ⟨t, c₁, taken, done⟩ := bind_eq_ok.1 skipped
      cases done
      obtain ⟨items, ⟨same⟩, reads⟩ := expectAs_follows (by decide) _ _ _ _ _ taken
      exact .inr ⟨t, same, reads⟩
  have forward : ∀ c c', (do
      if (← nextKind) ≠ close then
        let _ ← expectAs .comma (.either .comma close) setting : Parser Unit) c = .ok () c' →
      c'.rest.length ≤ c.rest.length := by
    intro c c' skipped
    rcases separated c c' skipped with ⟨rfl, -⟩ | ⟨t, -, reads⟩
    · exact Nat.le_refl _
    · exact reads.rest_le
  have rounds := itemsUntil_rounds word follows forward c.rest (Nat.le_refl _) run
  clear run forward
  induction rounds with
  | close closes reads => exact ⟨_, .close closes, reads⟩
  | item goesOn first gap others ih =>
    obtain ⟨items, listed, reads⟩ := ih
    rcases separated _ _ gap with ⟨rfl, ended⟩ | ⟨t, separates, comma⟩
    · cases others with
      | close closes last => exact ⟨_, .last closes, first.append last⟩
      | item more => exact absurd ended more
    · exact ⟨_, .cons separates listed, first.append (comma.append reads)⟩

end Loops

theorem endStatement_reads {landmark : Landmark} {c c' : Cursor}
    (run : endStatement landmark c = .ok () c') : ∃ items, Ending items ∧ Reads items c c' := by
  unfold endStatement at run
  obtain ⟨b, c₁, taken, run₁⟩ := bind_eq_ok.1 run
  rcases accept_ok taken (by decide) with ⟨rfl, t, line, reads⟩ | ⟨rfl, rfl, -⟩
  · cases run₁
    exact ⟨_, .newline line, reads⟩
  · obtain ⟨c₂, c₃, asked, run₂⟩ := bind_eq_ok.1 run₁
    cases asked
    rw [TokenStream.endsStatement_cursor] at run₂
    cases ended : c₁.endsStatement with
    | true =>
      rw [ended] at run₂
      cases run₂
      exact ⟨[], .none, .nil _⟩
    | false =>
      rw [ended] at run₂
      exact absurd run₂ not_fail_ok

theorem endStatement_follows (landmark : Landmark) :
    Follows (endStatement landmark) fun _ items => Ending items :=
  fun _ _ _ run => endStatement_reads run

theorem openBlock_reads {landmark : Landmark} {c c' : Cursor}
    (run : openBlock landmark c = .ok () c') : ∃ newline indent : Token, ∃ blank : List Token,
      newline.kind = .newline ∧ (∀ t ∈ blank, t.kind = .newline) ∧ indent.kind = .indent ∧
        Reads (.word newline :: (blank.map .word ++ [.word indent])) c c' := by
  unfold openBlock at run
  obtain ⟨newline, c₁, taken, run₁⟩ := bind_eq_ok.1 run
  obtain ⟨lines, c₂, skipped, run₂⟩ := bind_eq_ok.1 run₁
  obtain ⟨indent, c₃, opened, done⟩ := bind_eq_ok.1 run₂
  cases done
  obtain ⟨_, ⟨line⟩, first⟩ := expectAs_follows (by decide) _ _ _ _ _ taken
  obtain ⟨_, ⟨opens⟩, last⟩ := expectAs_follows (by decide) _ _ _ _ _ opened
  have nothing : Follows (pure ()) fun _ items => items = [] := by
    intro c a c' done
    cases done
    exact ⟨[], rfl, .nil _⟩
  obtain ⟨items, each, between⟩ := eachAfter_follows (by decide) nothing _ _ _ skipped
  have blank : ∃ blank : List Token, items = blank.map .word ∧ ∀ t ∈ blank, t.kind = .newline := by
    clear between skipped
    induction each with
    | nil => exact ⟨[], rfl, List.forall_mem_nil _⟩
    | cons marked none more ih =>
      obtain ⟨blank, rfl, lines⟩ := ih
      cases none
      exact ⟨_ :: blank, rfl, List.forall_mem_cons.2 ⟨marked, lines⟩⟩
  obtain ⟨blank, rfl, lines⟩ := blank
  exact ⟨newline, indent, blank, line, lines, opens, first.append (between.append last)⟩

variable {phrase : Phrase}

/-- A block, however its items are read. -/
theorem block_of_sequence {item : Parser Node} (follows : Follows item (IsPart phrase))
    (landmark : Landmark) :
    Follows (do openBlock landmark; sequence .outdent item) (Block phrase) := by
  intro c ns c' run
  obtain ⟨_, c₁, opened, run₁⟩ := bind_eq_ok.1 run
  obtain ⟨newline, indent, blank, line, lines, opens, first⟩ := openBlock_reads opened
  obtain ⟨_, ⟨outdent, closes, rfl⟩, second⟩ := sequence_follows (by decide) follows _ _ _ run₁
  refine ⟨_, .mk ns line lines opens closes, ?_⟩
  have reads := first.append second
  rw [List.cons_append, List.append_assoc] at reads
  exact reads

theorem block_follows {construct : Parser Node} (follows : Follows construct (IsPart phrase))
    (landmark : Landmark) : Follows (block construct landmark) (Block phrase) :=
  block_of_sequence (unlessAtEnd_follows follows _) landmark

namespace Completes

variable {β : Type} {before items : List Item} {form : Form Node} {start span : Span}

theorem bind {p : Parser α} {Means : α → List Item → Prop} {f : α → Parser Node}
    (follows : Follows p Means)
    (more : ∀ a items, Means a items → Completes (before ++ items) phrase (f a)) :
    Completes before phrase (p >>= f) := by
  intro c₀ c n c' reads run
  obtain ⟨a, c₁, found, run₁⟩ := bind_eq_ok.1 run
  obtain ⟨items, means, others⟩ := follows _ _ _ found
  exact more a items means _ _ _ _ (reads.append others) run₁

/-- A block behind the items, which is opened first. -/
theorem indented {item : Parser Node} {within : Phrase} {landmark : Landmark}
    {f : List Node → Parser Node} (follows : Follows item (IsPart within))
    (more : ∀ nodes items, Block within nodes items →
      Completes (before ++ items) phrase (f nodes)) :
    Completes before phrase (do
      openBlock landmark
      let nodes ← sequence .outdent item
      f nodes) := by
  have whole := bind (f := f) (block_of_sequence follows landmark) more
  rw [bind_assoc] at whole
  exact whole

theorem get {f : Cursor → Parser Node} (more : ∀ c, Completes before phrase (f c)) :
    Completes before phrase (get >>= f) :=
  fun c₀ c n c' reads run => more c c₀ c n c' reads run

theorem ite {condition : Prop} [Decidable condition] {p q : Parser Node}
    (yes : condition → Completes before phrase p) (no : ¬ condition → Completes before phrase q) :
    Completes before phrase (if condition then p else q) := by
  split
  · exact yes ‹_›
  · exact no ‹_›

theorem node (made : ∀ first last, Production phrase before first last span form) :
    Completes before phrase (node span form) := by
  intro c₀ c n c' reads run
  cases run
  exact reads.node (made _ _)

theorem spanned
    (made : ∀ first last, Production phrase before first last (start.through last.span) form) :
    Completes before phrase (do Parser.node (← spanFrom start) form) := by
  intro c₀ c n c' reads run
  cases run
  exact reads.node (made _ _)

theorem statement {landmark : Landmark}
    (made : ∀ first last, Production phrase before first last (start.through last.span) form) :
    Completes before phrase (do
      let span ← spanFrom start
      endStatement landmark
      Parser.node span form) := by
  intro c₀ c n c' reads run
  obtain ⟨span, c₁, covered, run₁⟩ := bind_eq_ok.1 run
  obtain ⟨_, c₂, ended, done⟩ := bind_eq_ok.1 run₁
  cases covered
  cases done
  obtain ⟨closing, ends, closed⟩ := endStatement_reads ended
  exact reads.statement closed ends (made _ _)

theorem closed {landmark : Landmark}
    (made : ∀ first last, Production phrase before first last span form) :
    Completes before phrase (do
      endStatement landmark
      Parser.node span form) := by
  intro c₀ c n c' reads run
  obtain ⟨_, c₁, ended, done⟩ := bind_eq_ok.1 run
  cases done
  obtain ⟨closing, ends, closed⟩ := endStatement_reads ended
  exact reads.statement closed ends (made _ _)

theorem failed {fault : SyntaxFault} : Completes before phrase (fail fault) :=
  fun _ _ _ _ _ run => absurd run not_fail_ok

theorem failedAt {fault : SyntaxFault} : Completes before phrase (failAt span fault) := by
  intro c₀ c n c' reads run
  cases run

/-- What begins at the beginning of the phrase reads all of it. -/
theorem follows {p : Parser Node} (completes : Completes [] phrase p) :
    Follows p (IsPart phrase) :=
  fun c n c' run => ⟨_, .mk n, completes c c n c' (.nil c) run⟩

end Completes

end Parser

end TekLang
