/-!
# Positions and spans

A position is a line and a column of a text, both counted from zero; a span is the stretch between
two positions. `inSourceOrder` lists things by the place where they start and keeps the given order
among things that start together: `inSourceOrder_perm` says that it loses and invents nothing, and
`inSourceOrder_filter` that leaving things out first or afterwards comes to the same.

Positions and spans are those of `span`, which counts lines and columns in 32 bits. Here they are
numbers without a bound, and the two agree as long as no line or column reaches 2^32.
-/

namespace TekLang

/-- A place in a text: the line, then the column in code points, both from zero
    (`span::Position`, where both are 32 bits wide). -/
structure Position where
  line : Nat
  column : Nat
deriving DecidableEq, Inhabited, Repr

namespace Position

/-- Where a text starts. -/
def origin : Position := ⟨0, 0⟩

instance : LT Position where
  lt a b := a.line < b.line ∨ a.line = b.line ∧ a.column < b.column

instance : LE Position where
  le a b := a.line < b.line ∨ a.line = b.line ∧ a.column ≤ b.column

theorem lt_def (a b : Position) :
    a < b ↔ a.line < b.line ∨ a.line = b.line ∧ a.column < b.column := Iff.rfl

theorem le_def (a b : Position) :
    a ≤ b ↔ a.line < b.line ∨ a.line = b.line ∧ a.column ≤ b.column := Iff.rfl

instance (a b : Position) : Decidable (a < b) :=
  decidable_of_iff _ (lt_def a b).symm

instance (a b : Position) : Decidable (a ≤ b) :=
  decidable_of_iff _ (le_def a b).symm

theorem le_refl (a : Position) : a ≤ a := Or.inr ⟨rfl, Nat.le_refl _⟩

theorem le_trans {a b c : Position} (hab : a ≤ b) (hbc : b ≤ c) : a ≤ c := by
  rw [le_def] at *
  omega

theorem le_total (a b : Position) : a ≤ b ∨ b ≤ a := by
  rw [le_def, le_def]
  omega

theorem le_antisymm {a b : Position} (hab : a ≤ b) (hba : b ≤ a) : a = b := by
  rw [le_def] at *
  cases a
  cases b
  simp_all
  omega

/-- The place behind a character that stands at `p`: a line feed ends its line
    (`Lexer::consume_char`). -/
def after (p : Position) (c : Char) : Position :=
  if c = '\n' then ⟨p.line + 1, 0⟩ else ⟨p.line, p.column + 1⟩

theorem lt_after (p : Position) (c : Char) : p < p.after c := by
  unfold after
  split <;> simp [lt_def]

theorem le_after (p : Position) (c : Char) : p ≤ p.after c := by
  unfold after
  split <;> simp [le_def]

/-- People count lines and columns from one (`Position::fmt`). -/
def text (p : Position) : String :=
  toString (p.line + 1) ++ ":" ++ toString (p.column + 1)

end Position

/-- The stretch of a text from `start` up to `stop`, the latter not included (`span::Span`). -/
structure Span where
  start : Position
  stop : Position
deriving DecidableEq, Inhabited, Repr

namespace Span

/-- The empty span at a place. -/
def point (p : Position) : Span := ⟨p, p⟩

/-- From the start of one span to the end of another (`Span::to`). -/
def through (a b : Span) : Span := ⟨a.start, b.stop⟩

/-- Nothing of `b` lies outside `a` (`Span::contains`). -/
def Contains (a b : Span) : Prop := a.start ≤ b.start ∧ b.stop ≤ a.stop

instance (a b : Span) : Decidable (a.Contains b) := inferInstanceAs (Decidable (_ ∧ _))

theorem Contains.refl (a : Span) : a.Contains a := ⟨Position.le_refl _, Position.le_refl _⟩

theorem Contains.trans {a b c : Span} (hab : a.Contains b) (hbc : b.Contains c) :
    a.Contains c :=
  ⟨Position.le_trans hab.1 hbc.1, Position.le_trans hbc.2 hab.2⟩

end Span

section SourceOrder

variable {α : Type}

/-- Puts `x` in front of the first thing that does not start before it. -/
def insertByStart (start : α → Position) (x : α) : List α → List α
  | [] => [x]
  | y :: ys => if start x ≤ start y then x :: y :: ys else y :: insertByStart start x ys

/-- The things of a list by their starts; those that start together stay in the given order. This is
    the stable sort of `Node::children` and of `Linter::lint`. -/
def inSourceOrder (start : α → Position) : List α → List α
  | [] => []
  | x :: xs => insertByStart start x (inSourceOrder start xs)

theorem insertByStart_perm (start : α → Position) (x : α) (xs : List α) :
    (insertByStart start x xs).Perm (x :: xs) := by
  induction xs with
  | nil => exact .refl _
  | cons y ys ih =>
    unfold insertByStart
    split
    · exact .refl _
    · exact (ih.cons y).trans (.swap ..)

theorem inSourceOrder_perm (start : α → Position) (xs : List α) :
    (inSourceOrder start xs).Perm xs := by
  induction xs with
  | nil => exact .refl _
  | cons x xs ih => exact (insertByStart_perm start x _).trans (ih.cons x)

@[simp] theorem mem_inSourceOrder {start : α → Position} {x : α} {xs : List α} :
    x ∈ inSourceOrder start xs ↔ x ∈ xs :=
  (inSourceOrder_perm start xs).mem_iff

theorem insertByStart_pairwise {start : α → Position} {x : α} {xs : List α}
    (sorted : xs.Pairwise (start · ≤ start ·)) :
    (insertByStart start x xs).Pairwise (start · ≤ start ·) := by
  induction xs with
  | nil => simp [insertByStart]
  | cons y ys ih =>
    have tail := List.pairwise_cons.1 sorted
    unfold insertByStart
    split
    · rename_i before
      refine List.pairwise_cons.2 ⟨fun z hz => ?_, sorted⟩
      rcases List.mem_cons.1 hz with rfl | hz
      · exact before
      · exact Position.le_trans before (tail.1 z hz)
    · rename_i behind
      refine List.pairwise_cons.2 ⟨fun z hz => ?_, ih tail.2⟩
      rcases List.mem_cons.1 ((insertByStart_perm start x ys).mem_iff.1 hz) with rfl | hz
      · exact (Position.le_total _ _).resolve_left behind
      · exact tail.1 z hz

/-- The result is ordered by start. -/
theorem inSourceOrder_pairwise (start : α → Position) (xs : List α) :
    (inSourceOrder start xs).Pairwise (start · ≤ start ·) := by
  induction xs with
  | nil => exact .nil
  | cons x xs ih => exact insertByStart_pairwise ih

theorem insertByStart_of_forall_le {start : α → Position} {x : α} {xs : List α}
    (first : ∀ y ∈ xs, start x ≤ start y) : insertByStart start x xs = x :: xs := by
  cases xs with
  | nil => rfl
  | cons y ys => simp [insertByStart, first y (by simp)]

/-- A list that is in order already is left alone. -/
theorem inSourceOrder_of_pairwise {start : α → Position} {xs : List α}
    (sorted : xs.Pairwise (start · ≤ start ·)) : inSourceOrder start xs = xs := by
  induction xs with
  | nil => rfl
  | cons x xs ih =>
    have tail := List.pairwise_cons.1 sorted
    rw [inSourceOrder, ih tail.2, insertByStart_of_forall_le tail.1]

theorem filter_insertByStart {start : α → Position} {keep : α → Bool} {x : α} {xs : List α}
    (sorted : xs.Pairwise (start · ≤ start ·)) :
    (insertByStart start x xs).filter keep =
      if keep x then insertByStart start x (xs.filter keep) else xs.filter keep := by
  induction xs with
  | nil => cases hx : keep x <;> simp [insertByStart, hx]
  | cons y ys ih =>
    have tail := List.pairwise_cons.1 sorted
    rw [insertByStart]
    split
    · rename_i before
      by_cases hx : keep x
      · rw [List.filter_cons_of_pos hx, if_pos hx, insertByStart_of_forall_le]
        intro z hz
        rcases List.mem_cons.1 (List.mem_filter.1 hz).1 with rfl | hz
        · exact before
        · exact Position.le_trans before (tail.1 z hz)
      · rw [List.filter_cons_of_neg hx, if_neg hx]
    · rename_i behind
      by_cases hy : keep y
      · rw [List.filter_cons_of_pos hy, List.filter_cons_of_pos hy, ih tail.2]
        rw [insertByStart, if_neg behind]
        split <;> rfl
      · rw [List.filter_cons_of_neg hy, List.filter_cons_of_neg hy, ih tail.2]

/-- Leaving things out before the ordering or after it comes to the same. -/
theorem inSourceOrder_filter (start : α → Position) (keep : α → Bool) (xs : List α) :
    inSourceOrder start (xs.filter keep) = (inSourceOrder start xs).filter keep := by
  induction xs with
  | nil => rfl
  | cons x xs ih =>
    rw [inSourceOrder, filter_insertByStart (inSourceOrder_pairwise start xs), ← ih]
    by_cases hx : keep x
    · rw [List.filter_cons_of_pos hx, if_pos hx, inSourceOrder]
    · rw [List.filter_cons_of_neg hx, if_neg hx]

theorem map_insertByStart {β : Type} {start : α → Position} {start' : β → Position} {f : α → β}
    (same : ∀ x, start' (f x) = start x) (x : α) (xs : List α) :
    (insertByStart start x xs).map f = insertByStart start' (f x) (xs.map f) := by
  induction xs with
  | nil => rfl
  | cons y ys ih =>
    simp only [insertByStart, List.map_cons, same]
    split <;> simp [ih]

/-- Replacing the things without moving them does not disturb the order. -/
theorem map_inSourceOrder {β : Type} {start : α → Position} {start' : β → Position} {f : α → β}
    (same : ∀ x, start' (f x) = start x) (xs : List α) :
    (inSourceOrder start xs).map f = inSourceOrder start' (xs.map f) := by
  induction xs with
  | nil => rfl
  | cons x xs ih => rw [inSourceOrder, map_insertByStart same, ih, List.map_cons, inSourceOrder]

end SourceOrder

end TekLang
