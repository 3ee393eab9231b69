import TekLang.Proofs.Grammar.Run

/-!
# What readers do to the cursor

A reader, whether it succeeds or fails, only takes tokens from the front and numbers nodes. `Moves`
is the relation that these two steps span, and `Forward` says of a reader that it does nothing else.
-/

namespace TekLang

/-- From one cursor to another by taking tokens and numbering nodes. -/
inductive Moves : Cursor → Cursor → Prop
  | refl (c : Cursor) : Moves c c
  | take {t rest c c'} (ahead : c.rest = t :: rest) (others : Moves (c.behind t rest) c') :
    Moves c c'
  | number {c c'} (others : Moves c.numbered c') : Moves c c'

namespace Moves

theorem trans {c c' c'' : Cursor} (first : Moves c c') (second : Moves c' c'') : Moves c c'' := by
  induction first with
  | refl => exact second
  | take ahead _ ih => exact .take ahead (ih second)
  | number _ ih => exact .number (ih second)

theorem rest_suffix {c c' : Cursor} (moves : Moves c c') : c'.rest <:+ c.rest := by
  induction moves with
  | refl => exact List.suffix_refl _
  | take ahead _ ih =>
    rw [ahead]
    exact ih.trans (List.suffix_cons _ _)
  | number _ ih => exact ih

theorem nextId_le {c c' : Cursor} (moves : Moves c c') : c.nextId ≤ c'.nextId := by
  induction moves with
  | refl => exact Nat.le_refl _
  | take _ _ ih => exact ih
  | number _ ih => exact Nat.le_of_succ_le ih

/-- The tokens that were taken stood in front of the others, and the last of them is read last. -/
theorem exists_used {c c' : Cursor} (moves : Moves c c') : ∃ used, c.rest = used ++ c'.rest ∧
    c'.last = used.getLastD c.last ∧ c'.stop = c.stop := by
  induction moves with
  | refl => exact ⟨[], rfl, rfl, rfl⟩
  | @take t rest c c' ahead _ ih =>
    obtain ⟨used, taken, last, stop⟩ := ih
    refine ⟨t :: used, ?_, ?_, stop⟩
    · rw [ahead, List.cons_append, ← taken]
      rfl
    · rw [last, List.getLastD_cons]
      rfl
  | number _ ih => exact ih

theorem stop_eq {c c' : Cursor} (moves : Moves c c') : c'.stop = c.stop := by
  obtain ⟨used, -, -, stop⟩ := moves.exists_used
  exact stop

end Moves

namespace Parser

variable {α β : Type}

/-- The place that a run comes to. -/
def placeAfter {σ : Type} : EStateM.Result SyntaxError σ α → σ
  | .ok _ s | .error _ s => s

/-- The parser only takes tokens and numbers nodes. -/
def Forward (p : Parser α) : Prop := ∀ c, Moves c (placeAfter (p c))

namespace Forward

theorem ok {p : Parser α} (forward : Forward p) {c c' : Cursor} {a : α} (run : p c = .ok a c') :
    Moves c c' := by
  have moves := forward c
  rw [run] at moves
  exact moves

theorem error {p : Parser α} (forward : Forward p) {c c' : Cursor} {e : SyntaxError}
    (run : p c = .error e c') : Moves c c' := by
  have moves := forward c
  rw [run] at moves
  exact moves

theorem pure (a : α) : Forward (Pure.pure a) := fun c => .refl c

theorem get : Forward (get : Parser Cursor) := fun c => .refl c

theorem bind {p : Parser α} {f : α → Parser β} (first : Forward p)
    (second : ∀ a, Forward (f a)) : Forward (p >>= f) := by
  intro c
  rw [bind_apply]
  cases run : p c with
  | ok a c₁ => exact (first.ok run).trans (second a c₁)
  | error e c₁ => exact first.error run

theorem ite {condition : Prop} [Decidable condition] {p q : Parser α} (yes : Forward p)
    (no : Forward q) : Forward (if condition then p else q) := by
  split
  · exact yes
  · exact no

theorem failAt (span : Span) (fault : SyntaxFault) : Forward (failAt span fault : Parser α) :=
  fun c => .refl c

theorem fail (fault : SyntaxFault) : Forward (fail fault : Parser α) := fun c => .refl c

theorem upcoming : Forward upcoming := fun c => .refl c

theorem nextKind : Forward nextKind := fun c => .refl c

theorem atEnd : Forward atEnd := fun c => .refl c

theorem advance : Forward advance := by
  intro c
  cases ahead : c.rest with
  | nil =>
    rw [advance_of_rest_nil ahead]
    exact .refl c
  | cons t rest =>
    rw [advance_of_rest_cons ahead]
    exact .take ahead (.refl _)

theorem spanFrom (start : Span) : Forward (spanFrom start) := fun c => .refl c

theorem node (span : Span) (form : Form Node) : Forward (node span form) :=
  fun c => .number (.refl c.numbered)

theorem accept (kind : TokenKind) : Forward (accept kind) :=
  .bind nextKind fun _ => .ite (.bind advance fun _ => .pure true) (.pure false)

theorem expectAs (kind : TokenKind) (wanted : Wanted) (setting : Setting) :
    Forward (expectAs kind wanted setting) :=
  .bind nextKind fun _ => .ite advance (.fail _)

section Loops

variable {item : Parser α} (forward : Forward item)
include forward

theorem optional (mark : TokenKind) : Forward (optional mark item) :=
  .bind (accept mark) fun _ => .ite (.bind forward fun _ => .pure _) (.pure _)

theorem itemsUntil (close : TokenKind) {separator : Parser Unit} (between : Forward separator)
    (loop : List Token) : Forward (itemsUntil close item separator loop) := by
  induction loop with
  | nil => exact .bind forward fun _ => .pure _
  | cons round loop ih =>
    refine .bind (accept close) fun _ => .ite (.pure _) ?_
    exact .bind forward fun _ => .bind between fun _ => .bind ih fun _ => .pure _

theorem itemsAfter (mark : TokenKind) (loop : List Token) :
    Forward (itemsAfter mark item loop) := by
  induction loop with
  | nil => exact .pure _
  | cons round loop ih =>
    exact .bind (accept mark) fun _ =>
      .ite (.bind forward fun _ => .bind ih fun _ => .pure _) (.pure _)

theorem sequence (close : TokenKind) : Forward (sequence close item) :=
  .bind get fun c => itemsUntil forward close (.pure ()) c.rest

theorem commaSequence (close : TokenKind) (setting : Setting) :
    Forward (commaSequence close setting item) := by
  refine .bind get fun c => itemsUntil forward close ?_ c.rest
  exact .bind nextKind fun _ => .ite (.bind (expectAs _ _ _) fun _ => .pure _) (.pure _)

theorem eachAfter (mark : TokenKind) : Forward (eachAfter mark item) :=
  .bind get fun c => itemsAfter forward mark c.rest

theorem unlessAtEnd (wanted : Wanted) : Forward (unlessAtEnd wanted item) :=
  .bind atEnd fun _ => .ite (.fail _) forward

end Loops

theorem endStatement (landmark : Landmark) : Forward (endStatement landmark) :=
  .bind (accept _) fun _ => .ite (.pure _) (.bind get fun _ => .ite (.fail _) (.pure _))

theorem openBlock (landmark : Landmark) : Forward (openBlock landmark) :=
  .bind (expectAs _ _ _) fun _ => .bind (eachAfter (.pure _) _) fun _ =>
    .bind (expectAs _ _ _) fun _ => .pure _

theorem block {construct : Parser Node} (forward : Forward construct) (landmark : Landmark) :
    Forward (block construct landmark) :=
  .bind (openBlock landmark) fun _ => sequence (unlessAtEnd forward _) _

/-- A statement ends and its node is made. -/
theorem statement (start : Span) (landmark : Landmark) (form : Form Node) :
    Forward (do
      let span ← Parser.spanFrom start
      Parser.endStatement landmark
      Parser.node span form) :=
  .bind (spanFrom start) fun span => .bind (endStatement landmark) fun _ => .node span form

end Forward

/-- The parser goes forward, and unless the input is over it takes a token even if it fails. -/
structure Advances (p : Parser α) : Prop where
  forward : Forward p
  takes : ∀ c, c.rest ≠ [] → (placeAfter (p c)).rest.length < c.rest.length

end Parser

end TekLang
