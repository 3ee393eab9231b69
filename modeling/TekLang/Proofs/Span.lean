import Mathlib.Data.List.Nodup
import TekLang.Span

/-!
# Positions in order

The laws of the strict order on positions, and what ordering by start comes to where all starts
differ.
-/

namespace TekLang

namespace Position

theorem lt_irrefl (a : Position) : ¬ a < a := by
  rw [lt_def]
  omega

theorem le_of_lt {a b : Position} (less : a < b) : a ≤ b := by
  rw [lt_def] at less
  rw [le_def]
  omega

theorem lt_of_lt_of_le {a b c : Position} (ab : a < b) (bc : b ≤ c) : a < c := by
  rw [lt_def] at *
  rw [le_def] at bc
  omega

theorem lt_of_le_of_lt {a b c : Position} (ab : a ≤ b) (bc : b < c) : a < c := by
  rw [le_def] at ab
  rw [lt_def] at *
  omega

theorem lt_or_le (a b : Position) : a < b ∨ b ≤ a := by
  rw [lt_def, le_def]
  omega

end Position

/-- Things that start one behind another are the only order of themselves. -/
theorem inSourceOrder_eq_of_perm {α : Type} {start : α → Position} {xs ys : List α}
    (same : xs.Perm ys) (ordered : ys.Pairwise (start · < start ·)) :
    inSourceOrder start xs = ys := by
  have apart : (ys.map start).Nodup := by
    refine List.pairwise_map.2 (ordered.imp ?_)
    intro a b less equal
    rw [equal] at less
    exact Position.lt_irrefl _ less
  refine List.Perm.eq_of_pairwise (fun a b left right ab ba => ?_)
    (inSourceOrder_pairwise start xs) (ordered.imp Position.le_of_lt)
    ((inSourceOrder_perm start xs).trans same)
  have left : a ∈ ys := same.mem_iff.1 (mem_inSourceOrder.1 left)
  exact List.inj_on_of_nodup_map apart left right (Position.le_antisymm ab ba)

section Related

variable {α β : Type} {R : α → β → Prop} {start : α → Position} {start' : β → Position}

theorem forall₂_insertByStart (same : ∀ x y, R x y → start' y = start x) {x : α} {y : β}
    (first : R x y) {xs : List α} {ys : List β} (others : List.Forall₂ R xs ys) :
    List.Forall₂ R (insertByStart start x xs) (insertByStart start' y ys) := by
  induction others with
  | nil => exact .cons first .nil
  | cons head tail ih =>
    rw [insertByStart, insertByStart, same _ _ first, same _ _ head]
    split
    · exact .cons first (.cons head tail)
    · exact .cons head ih

/-- Things in the place of others, each starting where that starts, are put in the same order. -/
theorem forall₂_inSourceOrder (same : ∀ x y, R x y → start' y = start x) {xs : List α}
    {ys : List β} (related : List.Forall₂ R xs ys) :
    List.Forall₂ R (inSourceOrder start xs) (inSourceOrder start' ys) := by
  induction related with
  | nil => exact .nil
  | cons head tail ih => exact forall₂_insertByStart same head ih

end Related

end TekLang
