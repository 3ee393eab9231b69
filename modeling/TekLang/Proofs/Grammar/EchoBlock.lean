import TekLang.Proofs.Grammar.Echo

/-!
# Reading lists and blocks in front of more tokens

A list with a token that closes it is read again whatever stands behind it, and so is a block. The
end of a statement is found again, too, since no statement begins with the end of a line.
-/

namespace TekLang.Parser

open Placed (anywhere)

variable {α : Type} [Placed α] {more : List Token} {Before : Cursor → Prop}
  {After : α → Cursor → Prop}

section After

variable {mark : TokenKind} {item item' : Parser α} {Inv : Cursor → Prop}
  (echoed : Echoed more (fun c => c.last.kind = mark) (fun _ c => Inv c) item item')
include echoed

theorem ensures_itemsAfter (word : mark ≠ .eof) (loop : List Token) :
    Ensures Inv (itemsAfter mark item loop) fun _ c => Inv c := by
  induction loop with
  | nil =>
    rintro c _ _ holds ⟨⟩
    exact holds
  | cons round loop ih =>
    intro c as c' holds run
    by_cases marked : c.nextKind = mark
    · have some : c.rest ≠ [] := fun ended =>
        word (marked.symm.trans (Cursor.nextKind_of_rest_nil ended))
      obtain ⟨t, rest, ahead⟩ := List.exists_cons_of_ne_nil some
      have same := (Cursor.nextKind_of_rest_cons ahead).symm.trans marked
      rw [itemsAfter_of_kind ahead same] at run
      obtain ⟨a, c₁, found, run₁⟩ := bind_eq_ok.1 run
      obtain ⟨others, c₂, more, done⟩ := bind_eq_ok.1 run₁
      cases done
      exact ih c₁ others _ (echoed.ensures _ a c₁ same found) more
    · rw [itemsAfter_of_ne marked] at run
      cases run
      exact holds

/-- The loop has enough rounds as long as it has one for each token that is left. -/
theorem repeats_itemsAfter (follows : MayFollow more) (word : mark ≠ .eof)
    (other : mark.onlyBegins = false) (loop loop' : List Token) {c d c' : Cursor} {as : List α}
    (heads : c.Heads more d) (enough : c.rest.length ≤ loop.length)
    (enough' : d.rest.length ≤ loop'.length) (run : itemsAfter mark item loop c = .ok as c')
    (opened : c'.Open more) : ∃ bs d', itemsAfter mark item' loop' d = .ok bs d' ∧
      anywhere bs = anywhere as ∧ c'.Heads more d' := by
  induction loop generalizing loop' c d as c' with
  | nil =>
    have ended : c.rest = [] := List.length_eq_zero_iff.1 (Nat.le_zero.1 enough)
    cases run
    have apart : d.nextKind ≠ mark := by
      rw [heads.nextKind_atEnd ended]
      exact follows.ne_of_open word other opened ended
    exact ⟨[], d, itemsAfter_of_ne apart _ _, rfl, heads⟩
  | cons round loop ih =>
    by_cases marked : c.nextKind = mark
    · have some : c.rest ≠ [] := fun ended =>
        word (marked.symm.trans (Cursor.nextKind_of_rest_nil ended))
      obtain ⟨t, rest, ahead⟩ := List.exists_cons_of_ne_nil some
      obtain ⟨u, others, there, face, heads₁⟩ := heads.ahead ahead
      have same := (Cursor.nextKind_of_rest_cons ahead).symm.trans marked
      rw [itemsAfter_of_kind ahead same] at run
      obtain ⟨a, c₁, found, run₁⟩ := bind_eq_ok.1 run
      obtain ⟨as, c₂, listed, done⟩ := bind_eq_ok.1 run₁
      cases done
      have shorter := (echoed.forward.ok found).rest_suffix.length_le
      have opened₁ : c₁.Open more :=
        opened.of_suffix ((Forward.itemsAfter echoed.forward mark loop).ok listed).rest_suffix
      obtain ⟨b, d₁, found', sameItem, heads₂⟩ :=
        echoed.repeats _ _ a c₁ heads₁ same found opened₁
      have lengths := heads₂.length_rest
      have lengths' := heads₁.length_rest
      rw [Cursor.rest_behind] at shorter lengths'
      rw [ahead, List.length_cons, List.length_cons] at enough
      rw [there, List.length_cons] at enough'
      cases loop' with
      | nil => exact absurd enough' (Nat.not_succ_le_zero _)
      | cons round' loop' =>
        rw [List.length_cons] at enough'
        have room : c₁.rest.length ≤ loop.length := by omega
        have room' : d₁.rest.length ≤ loop'.length := by
          rw [Cursor.rest_behind] at lengths'
          omega
        obtain ⟨bs, d', listed', sameItems, heads'⟩ := ih loop' heads₂ room room' listed opened
        refine ⟨b :: bs, d', ?_, List.cons_eq_cons.2 ⟨sameItem, sameItems⟩, heads'⟩
        rw [itemsAfter_of_kind there ((Token.kind_eq_of_unplaced face).trans same)]
        exact bind_eq_ok.2 ⟨b, d₁, found', bind_eq_ok.2 ⟨bs, d', listed', rfl⟩⟩
    · rw [itemsAfter_of_ne marked] at run
      cases run
      have apart : d.nextKind ≠ mark := by
        by_cases ended : c.rest = []
        · rw [heads.nextKind_atEnd ended]
          exact follows.ne_of_open word other opened ended
        · rw [heads.nextKind ended]
          exact marked
      exact ⟨[], d, itemsAfter_of_ne apart _ _, rfl, heads⟩

theorem Echoed.eachAfter (follows : MayFollow more) (word : mark ≠ .eof)
    (other : mark.onlyBegins = false) : Echoed more Inv (fun _ c => Inv c)
      (Parser.eachAfter mark item) (Parser.eachAfter mark item') where
  forward := .eachAfter echoed.forward mark
  ensures c _ _ holds run := ensures_itemsAfter echoed word c.rest _ _ _ holds run
  repeats c d _ _ heads _ run opened :=
    repeats_itemsAfter echoed follows word other c.rest d.rest heads (Nat.le_refl _)
      (Nat.le_refl _) run opened

end After

section Until

variable {close : TokenKind} (word : close ≠ .eof) {item item' : Parser Node} {phrase : Phrase}
  (grammar : Follows item (IsPart phrase))
  (echoed : Echoed more (fun _ => True) (fun _ _ => True) item item')
  {separator separator' : Parser Unit}
include word grammar

/-- A list with an end to it is not read from no tokens. -/
theorem rest_ne_nil_of_itemsUntil {loop : List Token} {c c' : Cursor} {ns : List Node}
    (run : itemsUntil close item separator loop c = .ok ns c') : c.rest ≠ [] := by
  intro ended
  have none (n : Node) (c₁ : Cursor) : item c ≠ .ok n c₁ :=
    fun found => (grammar.reads found).rest_ne_nil ended
  cases loop with
  | nil =>
    obtain ⟨n, c₁, found, -⟩ := bind_eq_ok.1 run
    exact none n c₁ found
  | cons round loop =>
    have goesOn : c.nextKind ≠ close := by
      rw [Cursor.nextKind_of_rest_nil ended]
      exact Ne.symm word
    rw [itemsUntil_of_ne goesOn] at run
    obtain ⟨n, c₁, found, -⟩ := bind_eq_ok.1 run
    exact none n c₁ found

include echoed

/-- A list with an end to it is read again whatever stands behind it. -/
theorem repeats_itemsUntil
    (between : Echoed more (fun _ => True) (fun _ _ => True) separator separator')
    (loop loop' : List Token) {c d c' : Cursor} {ns : List Node} (heads : c.Heads more d)
    (enough : c.rest.length ≤ loop.length) (enough' : d.rest.length ≤ loop'.length)
    (run : itemsUntil close item separator loop c = .ok ns c') :
    ∃ ms d', itemsUntil close item' separator' loop' d = .ok ms d' ∧
      anywhere ms = anywhere ns ∧ c'.Heads more d' := by
  induction loop generalizing loop' c d ns c' with
  | nil =>
    have some := rest_ne_nil_of_itemsUntil word grammar run
    exact absurd (List.length_eq_zero_iff.1 (Nat.le_zero.1 enough)) some
  | cons round loop ih =>
    have some := rest_ne_nil_of_itemsUntil word grammar run
    obtain ⟨t, rest, ahead⟩ := List.exists_cons_of_ne_nil some
    obtain ⟨u, others, there, face, heads₁⟩ := heads.ahead ahead
    have same := Token.kind_eq_of_unplaced face
    cases loop' with
    | nil =>
      rw [there] at enough'
      exact absurd enough' (Nat.not_succ_le_zero _)
    | cons round' loop' =>
      by_cases closes : t.kind = close
      · rw [itemsUntil_of_kind ahead closes] at run
        cases run
        exact ⟨[], _, itemsUntil_of_kind there (same.trans closes) _ _ _ _, rfl, heads₁⟩
      · have goesOn : c.nextKind ≠ close := by
          rw [Cursor.nextKind_of_rest_cons ahead]
          exact closes
        have goesOn' : d.nextKind ≠ close := by
          rw [heads.nextKind some]
          exact goesOn
        rw [itemsUntil_of_ne goesOn] at run
        obtain ⟨n, c₁, found, run₁⟩ := bind_eq_ok.1 run
        obtain ⟨_, c₂, skipped, run₂⟩ := bind_eq_ok.1 run₁
        obtain ⟨ns, c₃, listed, done⟩ := bind_eq_ok.1 run₂
        cases done
        have opened₂ : c₂.Open more :=
          Cursor.open_of_rest_ne_nil (rest_ne_nil_of_itemsUntil word grammar listed)
        have behind := (between.forward.ok skipped).rest_suffix
        have less := (grammar.reads found).rest_lt (List.cons_ne_nil _ _)
        obtain ⟨m, d₁, found', sameItem, heads₂⟩ :=
          echoed.repeats c d n c₁ heads trivial found (opened₂.of_suffix behind)
        obtain ⟨_, d₂, skipped', -, heads₃⟩ :=
          between.repeats c₁ d₁ _ c₂ heads₂ trivial skipped opened₂
        have lengths := heads.length_rest
        have lengths₃ := heads₃.length_rest
        have shorter := behind.length_le
        rw [List.length_cons] at enough enough'
        have room : c₂.rest.length ≤ loop.length := by omega
        have room' : d₂.rest.length ≤ loop'.length := by omega
        obtain ⟨ms, d', listed', sameItems, heads'⟩ := ih loop' heads₃ room room' listed
        refine ⟨m :: ms, d', ?_, List.cons_eq_cons.2 ⟨sameItem, sameItems⟩, heads'⟩
        rw [itemsUntil_of_ne goesOn']
        exact bind_eq_ok.2 ⟨m, d₁, found', bind_eq_ok.2 ⟨_, d₂, skipped',
          bind_eq_ok.2 ⟨ms, d', listed', rfl⟩⟩⟩

theorem repeats_sequence : Repeats more (fun _ => True) (fun _ _ => True)
    (sequence close item) (sequence close item') :=
  fun c d _ _ heads _ run _ => repeats_itemsUntil word grammar echoed
    (.pure rfl fun _ => id) c.rest d.rest heads (Nat.le_refl _) (Nat.le_refl _) run

theorem Echoed.sequence : Echoed more Before (fun _ c => c.last.kind = close)
    (Parser.sequence close item) (Parser.sequence close item') where
  forward := .sequence echoed.forward close
  ensures c ns c' _ run := by
    obtain ⟨items, ⟨t, closes, rfl⟩, reads⟩ := sequence_follows word grammar c ns c' run
    rw [reads.last List.getLast?_concat]
    exact closes
  repeats := (repeats_sequence word grammar echoed).weaken (fun _ _ => trivial) fun _ _ _ => trivial

omit word grammar echoed in
theorem Listed.getLast? {ns : List Node} {items : List Item}
    (listed : Listed phrase close ns items) :
    ∃ t, items.getLast? = some (.word t) ∧ t.kind = close := by
  induction listed with
  | close closes | last closes => exact ⟨_, rfl, closes⟩
  | cons separates others ih =>
    obtain ⟨t, ends, closes⟩ := ih
    rw [List.getLast?_cons_cons, List.getLast?_cons, ends]
    exact ⟨t, rfl, closes⟩

theorem Echoed.commaSequence (setting : Setting) :
    Echoed more Before (fun _ c => c.last.kind = close)
      (Parser.commaSequence close setting item) (Parser.commaSequence close setting item') where
  forward := .commaSequence echoed.forward close setting
  ensures c ns c' _ run := by
    obtain ⟨items, listed, reads⟩ := commaSequence_follows word grammar setting c ns c' run
    obtain ⟨t, ends, closes⟩ := Listed.getLast? listed
    rw [reads.last ends]
    exact closes
  repeats c d _ _ heads _ run _ := by
    refine repeats_itemsUntil word grammar echoed ?_ c.rest d.rest heads (Nat.le_refl _)
      (Nat.le_refl _) run
    refine nextKind_of_fails ?_ ?_
    · intro next
      refine ite ?_ fun _ => pure rfl fun _ _ => trivial
      intro _
      exact bind (expectAs (by decide) _ _) fun _ _ _ => pure rfl fun _ _ => trivial
    · intro c _ c' ended run
      rw [if_pos (Ne.symm word)] at run
      obtain ⟨t, c₁, taken, -⟩ := bind_eq_ok.1 run
      obtain ⟨items, ⟨same⟩, reads⟩ := expectAs_follows (by decide) _ _ _ _ _ taken
      exact reads.rest_ne_nil ended

end Until

/-- An item of a list whose end is still to come is read from a token at least. -/
theorem Echoed.unlessAtEnd {item item' : Parser α}
    (echoed : Echoed more (fun c => Before c ∧ c.rest ≠ []) After item item') (wanted : Wanted) :
    Echoed more Before After (Parser.unlessAtEnd wanted item)
      (Parser.unlessAtEnd wanted item') := by
  have some {c : Cursor} {a : α} {c' : Cursor}
      (run : Parser.unlessAtEnd wanted item c = .ok a c') : c.rest ≠ [] := by
    intro ended
    unfold Parser.unlessAtEnd at run
    rw [bind_of_ok (atEnd_of_rest_nil ended)] at run
    exact not_fail_ok run
  refine ⟨.unlessAtEnd echoed.forward wanted, ?_, ?_⟩
  · intro c a c' holds run
    have ahead := some run
    obtain ⟨t, rest, here⟩ := List.exists_cons_of_ne_nil ahead
    rw [unlessAtEnd_of_rest_cons here] at run
    exact echoed.ensures c a c' ⟨holds, ahead⟩ run
  · intro c d a c' heads holds run opened
    have ahead := some run
    obtain ⟨t, rest, here⟩ := List.exists_cons_of_ne_nil ahead
    obtain ⟨u, others, there, -⟩ := heads.ahead here
    rw [unlessAtEnd_of_rest_cons here] at run
    rw [unlessAtEnd_of_rest_cons there]
    exact echoed.repeats c d a c' heads ⟨holds, ahead⟩ run opened

/-! ## Statements and blocks -/

/-- If a token of the layout was read last, a block has just been closed. -/
def BehindBlock (c : Cursor) : Prop := c.last.kind.isLayout = true → c.last.kind = .outdent

/-- A word was read last. -/
def BehindWord (c : Cursor) : Prop := c.last.kind.isLayout = false

namespace BehindWord

variable {c : Cursor}

theorem of_kind {kind : TokenKind} (same : c.last.kind = kind) (word : kind.isLayout = false) :
    BehindWord c := by
  unfold BehindWord
  rw [same, word]

theorem behindBlock (word : BehindWord c) : BehindBlock c := by
  intro layout
  rw [word] at layout
  cases layout

/-- Behind a word there is more to come, so whatever stands behind the text is far away. -/
theorem isOpen (word : BehindWord c) (closed : c.Closed) : c.Open more :=
  Cursor.open_of_rest_ne_nil (closed.rest_ne_nil word)

end BehindWord

variable (follows : MayFollow more)
include follows

/-- A statement that ends in front of the end of input ends in front of more tokens, too. -/
theorem repeats_endStatement (landmark landmark' : Landmark) :
    Repeats more BehindBlock (fun _ _ => True) (endStatement landmark)
      (endStatement landmark') := by
  intro c d _ c' heads block run _
  by_cases ended : c.rest = []
  · have other : c.nextKind ≠ .newline := by
      rw [Cursor.nextKind_of_rest_nil ended]
      decide
    have other' : d.nextKind ≠ .newline := by
      rw [heads.nextKind_atEnd ended]
      exact follows.ne_of_not_joins (by decide) rfl rfl
    obtain ⟨rfl, -⟩ := (endStatement_ok_of_ne other).1 run
    have closed : d.last.kind = .outdent :=
      heads.last.trans (block (heads.closed.isLayout_last ended))
    have ends : d.endsStatement = true := by simp [Cursor.endsStatement, closed]
    exact ⟨(), d, (endStatement_ok_of_ne other').2 ⟨rfl, ends⟩, rfl, heads⟩
  · obtain ⟨t, rest, ahead⟩ := List.exists_cons_of_ne_nil ended
    obtain ⟨u, others, there, face, heads₁⟩ := heads.ahead ahead
    have same := Token.kind_eq_of_unplaced face
    by_cases line : t.kind = .newline
    · rw [endStatement_of_newline ahead line] at run
      cases run
      exact ⟨(), _, endStatement_of_newline there (same.trans line) _, rfl, heads₁⟩
    · have other : c.nextKind ≠ .newline := by
        rw [Cursor.nextKind_of_rest_cons ahead]
        exact line
      have next := heads.nextKind ended
      obtain ⟨rfl, ends⟩ := (endStatement_ok_of_ne other).1 run
      have ends' : d.endsStatement = true := by
        rw [← ends, Cursor.endsStatement, Cursor.endsStatement, next, heads.last]
      exact ⟨(), d, (endStatement_ok_of_ne (by rw [next]; exact other)).2 ⟨rfl, ends'⟩, rfl, heads⟩

namespace Echoed

theorem openBlock (landmark : Landmark) :
    Echoed more Before (fun _ _ => True) (Parser.openBlock landmark)
      (Parser.openBlock landmark) := by
  have lines : Echoed more (fun _ => True) (fun _ _ => True)
      (Parser.eachAfter .newline (Pure.pure () : Parser Unit))
      (Parser.eachAfter .newline (Pure.pure ())) :=
    eachAfter (pure rfl fun _ _ => trivial) follows (by decide) rfl
  exact bind (expectAs (by decide) _ _) fun _ _ _ => bind lines.always fun _ _ _ =>
    bind (expectAs (by decide) _ _) fun _ _ _ => pure rfl fun _ _ => trivial

end Echoed

section Blocks

variable {item item' : Parser Node} {phrase : Phrase} (grammar : Follows item (IsPart phrase))
  (echoed : Echoed more (fun _ => True) (fun _ _ => True) item item')
include grammar echoed

/-- A block is read again whatever stands behind it. -/
theorem repeats_block (landmark : Landmark) :
    Repeats more Before (fun _ _ => True) (Parser.block item landmark)
      (Parser.block item' landmark) := by
  refine (Echoed.openBlock follows landmark).before ?_ fun _ _ _ => ?_
  · intro _ c _ _ _ _ run _
    exact Cursor.open_of_rest_ne_nil
      (rest_ne_nil_of_itemsUntil (by decide) (unlessAtEnd_follows grammar _) run)
  · exact (repeats_sequence (by decide) (unlessAtEnd_follows grammar _)
      (echoed.always.unlessAtEnd _)).weaken (fun _ _ => trivial) fun _ _ _ => trivial

theorem Echoed.block (landmark : Landmark) :
    Echoed more Before (fun _ c => c.last.kind = .outdent) (Parser.block item landmark)
      (Parser.block item' landmark) :=
  .bind (.openBlock follows landmark) fun _ _ _ =>
    .sequence (by decide) (unlessAtEnd_follows grammar _) (echoed.always.unlessAtEnd _)

omit follows echoed [Placed α] in
theorem rest_ne_nil_of_block {landmark : Landmark} {c c' : Cursor} {ns : List Node}
    (run : Parser.block item landmark c = .ok ns c') : c.rest ≠ [] := by
  obtain ⟨items, ⟨_⟩, reads⟩ := block_follows grammar landmark c ns c' run
  exact reads.rest_ne_nil

end Blocks

end TekLang.Parser
