import TekLang.Proofs.Token.LaidOut
import TekLang.Proofs.Token.Rereading

/-!
# Reading words one after another

What a scan reads is followed from word to word. A word is not settled before a character comes that
does not go on with it: that is a blank, a line feed, or the first character of a word that can
stand right behind it.
-/

namespace TekLang

/-- What of a token does not depend on where it stands: its kind and, of a word, its spelling. -/
def Token.face (t : Token) : TokenKind × Option String :=
  (t.kind, if t.kind.isLayout then none else some t.lexeme)

/-- The faces of the tokens among pieces. -/
def facesOf (ps : List Piece) : List (TokenKind × Option String) := (tokensOf ps).map Token.face

theorem facesOf_append (ps qs : List Piece) : facesOf (ps ++ qs) = facesOf ps ++ facesOf qs := by
  simp [facesOf, tokensOf_append]

/-- The word `u` can stand right behind the word `t`: the latter does not go on with its first
    character. -/
def Token.Meets (t u : Token) : Prop :=
  ∀ l : Lexeme, (∀ stop, ∃ span, l.settle stop = [.token ⟨t.kind, t.lexeme, span⟩]) →
    ∀ place, ∀ c ∈ u.lexeme.toList.head?, l.extend? place c = none

/-- What can stand between two words of a line. -/
inductive Gap (t u : Token) : List Char → Prop
  | blank : Gap t u [' ']
  | none (meets : t.Meets u) : Gap t u []

/-- The characters behind a word that spell the words behind it on its line. -/
inductive SpellsBehind : Token → List Char → List Token → Prop
  | nil {t} : SpellsBehind t [] []
  | cons {t u front cs us} (readable : u.IsReadable) (gap : Gap t u front)
    (others : SpellsBehind u cs us) : SpellsBehind t (front ++ u.lexeme.toList ++ cs) (u :: us)

theorem SpellsBehind.of_blanks {t : Token} {words : List Token}
    (readable : ∀ u ∈ words, u.IsReadable) :
    SpellsBehind t (words.flatMap (' ' :: ·.lexeme.toList)) words := by
  induction words generalizing t with
  | nil => exact .nil
  | cons u words ih =>
    obtain ⟨first, others⟩ := List.forall_mem_cons.1 readable
    exact .cons first .blank (ih others)

namespace Scan

/-- The characters take one scan to the other and settle pieces on the way. -/
def Reads (s : Scan) (cs : List Char) (after : Scan) (ps : List Piece) : Prop :=
  s.read cs = (after, ps)

theorem Reads.append {s middle after : Scan} {cs ds : List Char} {ps qs : List Piece}
    (first : s.Reads cs middle ps) (second : middle.Reads ds after qs) :
    s.Reads (cs ++ ds) after (ps ++ qs) := by
  unfold Reads at first second ⊢
  rw [read_append, first, second]

theorem reads_nil (s : Scan) : s.Reads [] s [] := rfl

theorem reads_single (s : Scan) (c : Char) : s.Reads [c] (s.step c).1 (s.step c).2 := by
  simp [Reads, read]

variable {s : Scan}

theorem reads_absorb {l longer : Lexeme} {cs : List Char} {place : Position}
    (inside : s.place = .insideWord l) (here : s.next = place)
    (absorbed : l.absorb place cs = some longer) : ∃ next,
      s.Reads cs { s with place := .insideWord longer, next } [] := by
  induction cs generalizing s l place with
  | nil =>
    obtain rfl := Option.some.inj absorbed
    refine ⟨s.next, ?_⟩
    rw [← inside]
    exact reads_nil s
  | cons c cs ih =>
    obtain ⟨middle, extended, absorbed⟩ := Option.bind_eq_some_iff.1 absorbed
    have first : s.Reads [c] { s with place := .insideWord middle, next := s.next.after c } [] := by
      simp [Reads, read, step, take, inside, here, extended]
    have there : s.next.after c = place.after c := by rw [here]
    obtain ⟨next, rest⟩ := ih (s := { s with place := .insideWord middle, next := s.next.after c })
      rfl there absorbed
    exact ⟨next, first.append rest⟩

/-- The scan reads a word that will be the token `t`. -/
def Pends (s : Scan) (t : Token) : Prop :=
  ∃ l, s.place = .insideWord l ∧ l.Ends ∧
    ∀ stop, ∃ span, l.settle stop = [.token ⟨t.kind, t.lexeme, span⟩]

/-- Reading the first word of a line opens and closes blocks as it stands. -/
theorem reads_first {t : Token} {start : Position} {width : Nat}
    (place : s.place = .margin start width) (readable : t.IsReadable) : ∃ after span,
      s.Reads t.lexeme.toList after (s.enterLine span width).2 ∧ after.Pends t ∧
        after.blocks = (s.enterLine span width).1.blocks ∧
        after.nesting = (s.enterLine span width).1.nesting := by
  obtain ⟨c, cs, spelt, opens, again⟩ := readable
  obtain ⟨l, absorbed, ends, settles⟩ := again s.next
  have first : s.Reads [c] { (s.enterLine ⟨start, s.next⟩ width).1 with
      place := .insideWord (.ofChar s.next c), next := s.next.after c }
      (s.enterLine ⟨start, s.next⟩ width).2 := by
    unfold OpensWord at opens
    simp [Reads, read, step, take, place, stepMargin, opens, next_enterLine]
  obtain ⟨next, rest⟩ := reads_absorb (s := { (s.enterLine ⟨start, s.next⟩ width).1 with
      place := .insideWord (.ofChar s.next c), next := s.next.after c }) rfl rfl absorbed
  have whole := first.append rest
  rw [List.append_nil, List.singleton_append, ← spelt] at whole
  refine ⟨_, _, whole, ⟨l, rfl, ends, ?_⟩, rfl, rfl⟩
  intro stop
  exact ⟨_, settles stop⟩

/-- The scan once the word that it reads, of the given kind, is settled. -/
def afterWord (s : Scan) (kind : TokenKind) : Scan :=
  { s with place := .betweenWords, nesting := nestingAfter s.nesting kind, hasWords := true }

/-- A word ends in front of a character that does not go on with it. -/
theorem settleWord_of_pends {t : Token} (pends : s.Pends t) : ∃ span,
    s.settleWord = (s.afterWord t.kind, [.token ⟨t.kind, t.lexeme, span⟩]) := by
  obtain ⟨l, place, -, settles⟩ := pends
  obtain ⟨span, settled⟩ := settles s.next
  refine ⟨span, ?_⟩
  rw [settleWord_of_insideWord place, settled]
  rfl

/-- What is read behind a word is read once the word is settled, if it begins with a character that
    does not go on with the word. -/
theorem reads_settled {t : Token} {l : Lexeme} {c : Char} (pends : s.Pends t)
    (place : s.place = .insideWord l) (stops : l.extend? s.next c = none) :
    ∃ span, ∀ cs after ps,
      (s.afterWord t.kind).Reads (c :: cs) after ps →
      s.Reads (c :: cs) after (.token ⟨t.kind, t.lexeme, span⟩ :: ps) := by
  obtain ⟨span, settled⟩ := settleWord_of_pends pends
  refine ⟨span, fun cs after ps reads => ?_⟩
  have stepped : s.step c = (((s.afterWord t.kind).step c).1,
      .token ⟨t.kind, t.lexeme, span⟩ :: ((s.afterWord t.kind).step c).2) := by
    simp [step, take, place, stops, settled, afterWord]
  obtain ⟨rfl, rfl⟩ := Prod.mk.inj reads
  unfold Reads
  rw [read, stepped]
  rfl

/-- Between words a word is read that stands there. -/
theorem reads_between {u : Token} (place : s.place = .betweenWords) (readable : u.IsReadable) :
    ∃ after, s.Reads u.lexeme.toList after [] ∧ after.Pends u ∧ after.blocks = s.blocks ∧
      after.nesting = s.nesting := by
  obtain ⟨c, cs, spelt, opens, again⟩ := readable
  obtain ⟨l, absorbed, ends, settles⟩ := again s.next
  have first : s.Reads [c] { s with
      place := .insideWord (.ofChar s.next c), next := s.next.after c } [] := by
    unfold OpensWord at opens
    simp [Reads, read, step, take, place, stepOutside, opens]
  obtain ⟨next, rest⟩ := reads_absorb (s := { s with
      place := .insideWord (.ofChar s.next c), next := s.next.after c }) rfl rfl absorbed
  have whole := first.append rest
  rw [List.append_nil, List.singleton_append, ← spelt] at whole
  refine ⟨_, whole, ⟨l, rfl, ends, ?_⟩, rfl, rfl⟩
  intro stop
  exact ⟨_, settles stop⟩

/-- The next word of a line is read behind what stands in front of it. -/
theorem reads_next {t u : Token} {front : List Char} (pends : s.Pends t) (readable : u.IsReadable)
    (gap : Gap t u front) : ∃ after span,
    s.Reads (front ++ u.lexeme.toList) after [.token ⟨t.kind, t.lexeme, span⟩] ∧ after.Pends u ∧
      after.blocks = s.blocks ∧ after.nesting = nestingAfter s.nesting t.kind := by
  obtain ⟨l, place, ends, settles⟩ := id pends
  cases gap with
  | blank =>
    obtain ⟨span, reads⟩ := reads_settled pends place (ends s.next).1
    have blank : (s.afterWord t.kind).Reads [' ']
        { s.afterWord t.kind with next := s.next.after ' ' } [] := rfl
    obtain ⟨after, word, pends', blocks, nesting⟩ :=
      reads_between (s := { s.afterWord t.kind with next := s.next.after ' ' }) rfl readable
    exact ⟨after, span, reads _ _ _ (blank.append word), pends', blocks, nesting⟩
  | none meets =>
    obtain ⟨c, cs, spelt, -⟩ := id readable
    have stops : l.extend? s.next c = none := meets l settles s.next c (by rw [spelt]; rfl)
    obtain ⟨span, reads⟩ := reads_settled pends place stops
    obtain ⟨after, word, pends', blocks, nesting⟩ :=
      reads_between (s := s.afterWord t.kind) rfl readable
    rw [List.nil_append]
    rw [spelt] at word ⊢
    exact ⟨after, span, reads _ _ _ word, pends', blocks, nesting⟩

/-- The words of a line are read one by one; the last of them is not settled yet. -/
theorem reads_behind {t : Token} {cs : List Char} {words : List Token}
    (spells : SpellsBehind t cs words) (pends : s.Pends t) : ∃ after ps last,
      s.Reads cs after ps ∧ after.Pends last ∧
        facesOf ps ++ [last.face] = (t :: words).map Token.face ∧ faultsOf ps = [] ∧
        after.blocks = s.blocks ∧ nestingAfter after.nesting last.kind =
          (t :: words).foldl (fun nesting t => nestingAfter nesting t.kind) s.nesting := by
  induction spells generalizing s with
  | nil => exact ⟨s, [], _, reads_nil s, pends, rfl, rfl, rfl, rfl⟩
  | cons readable gap _ ih =>
    obtain ⟨middle, span, first, pending, blocks, nesting⟩ := reads_next pends readable gap
    obtain ⟨after, ps, last, rest, pends', faces, faults, blocks', nesting'⟩ := ih pending
    refine ⟨after, _, last, first.append rest, pends', ?_, ?_, blocks'.trans blocks, ?_⟩
    · rw [facesOf_append, List.append_assoc, faces]
      rfl
    · rw [faultsOf_append, faults]
      rfl
    · rw [nesting', nesting]
      rfl

end Scan

end TekLang
