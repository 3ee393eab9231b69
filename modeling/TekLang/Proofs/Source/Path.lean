import Mathlib.Data.List.Lex
import Mathlib.Data.List.TakeWhile
import TekLang.Proofs.Source.Tree
import TekLang.Source.Path

/-!
# Paths of what lies in a tree

The path of something below a root has the steps of the root and then the names on the way down,
also where the root is empty or ends in a slash. So different locations have different paths, and
the order of paths, which is linear, compares the bytes of the names.
-/

namespace TekLang

/-! ### Pieces -/

theorem cutAtSlashes_cons {c : Char} {cs : List Char} (other : c ≠ '/') {piece : List Char}
    {pieces : List (List Char)} (cut : cutAtSlashes cs = piece :: pieces) :
    cutAtSlashes (c :: cs) = (c :: piece) :: pieces := by
  rw [cutAtSlashes, if_neg other, cut]

theorem exists_cutAtSlashes (cs : List Char) :
    ∃ piece pieces, cutAtSlashes cs = piece :: pieces := by
  induction cs with
  | nil => exact ⟨_, _, rfl⟩
  | cons c cs ih =>
    obtain ⟨piece, pieces, cut⟩ := ih
    by_cases slash : c = '/'
    · exact ⟨_, _, if_pos slash⟩
    · exact ⟨_, _, cutAtSlashes_cons slash cut⟩

theorem cutAtSlashes_append (cs ds : List Char) :
    cutAtSlashes (cs ++ '/' :: ds) = cutAtSlashes cs ++ cutAtSlashes ds := by
  induction cs with
  | nil => rfl
  | cons c cs ih =>
    by_cases slash : c = '/'
    · rw [List.cons_append, cutAtSlashes, cutAtSlashes, if_pos slash, if_pos slash, ih]
      rfl
    · obtain ⟨piece, pieces, cut⟩ := exists_cutAtSlashes cs
      rw [cut] at ih
      rw [List.cons_append, cutAtSlashes_cons slash ih, cutAtSlashes_cons slash cut]
      rfl

theorem cutAtSlashes_of_noSlash {cs : List Char} (noSlash : '/' ∉ cs) :
    cutAtSlashes cs = [cs] := by
  induction cs with
  | nil => rfl
  | cons c cs ih =>
    rw [List.mem_cons, not_or] at noSlash
    exact cutAtSlashes_cons (Ne.symm noSlash.1) (ih noSlash.2)

/-! ### Steps -/

namespace PathStep

/-- A slash behind the beginning changes nothing about it. -/
theorem ofBeginning?_append {cs : List Char} (some : cs ≠ []) (ds : List Char) :
    ofBeginning? (cs ++ '/' :: ds) = ofBeginning? cs := by
  obtain ⟨c, cs, rfl⟩ := List.exists_cons_of_ne_nil some
  by_cases slash : c = '/'
  · rw [slash]
    rfl
  by_cases dot : c = '.'
  · rw [dot]
    cases cs with
    | nil => rfl
    | cons d cs => by_cases slash : d = '/' <;> simp [ofBeginning?, slash]
  · simp [ofBeginning?, slash, dot]

theorem rank_injective : Function.Injective rank := by
  intro a b same
  cases a with
  | entry name =>
    cases b with
    | entry other =>
      have bytes := List.map_injective_iff.2 (fun _ _ => UInt8.toNat_inj.1) (List.cons.inj same).2
      rw [String.toByteArray_inj.1 (ByteArray.ext (Array.toList_inj.1 bytes))]
    | _ => cases same
  | _ => cases b <;> first | rfl | cases same

end PathStep

namespace IsEntryName

variable {name : String} (proper : IsEntryName name)
include proper

theorem ofPiece?_eq : PathStep.ofPiece? name.toList = some (.entry name) := by
  unfold PathStep.ofPiece?
  split
  · next empty => exact absurd (String.toList_inj.1 empty) proper.ne_empty
  · next dot => exact absurd (String.toList_inj.1 dot) proper.ne_here
  · next dots => exact absurd (String.toList_inj.1 dots) proper.ne_above
  · rw [String.ofList_toList]

theorem ofBeginning?_eq : PathStep.ofBeginning? name.toList = none := by
  unfold PathStep.ofBeginning?
  have noSlash := proper.noSlash
  split
  · next slash => exact absurd (slash ▸ List.mem_cons_self) noSlash
  · next dot => exact absurd (String.toList_inj.1 dot) proper.ne_here
  · next slash => exact absurd (slash ▸ List.mem_cons_of_mem _ List.mem_cons_self) noSlash
  · rfl

/-- The pieces of a path that are followed by a slash and a name. -/
theorem filterMap_cutAtSlashes (cs : List Char) :
    (cutAtSlashes (cs ++ '/' :: name.toList)).filterMap PathStep.ofPiece? =
      (cutAtSlashes cs).filterMap PathStep.ofPiece? ++ [.entry name] := by
  rw [cutAtSlashes_append, cutAtSlashes_of_noSlash proper.noSlash, List.filterMap_append,
    List.filterMap_cons_some proper.ofPiece?_eq, List.filterMap_nil]

end IsEntryName

theorem pathSteps_joinPath (path : String) {name : String} (proper : IsEntryName name) :
    pathSteps (joinPath path name) = pathSteps path ++ [.entry name] := by
  have slash : ("/" : String).toList = ['/'] := rfl
  unfold joinPath pathSteps
  split
  · next empty =>
    rw [List.getLast?_eq_none_iff] at empty
    rw [String.toList_append, empty, List.nil_append, cutAtSlashes_of_noSlash proper.noSlash,
      proper.ofBeginning?_eq, List.filterMap_cons_some proper.ofPiece?_eq]
    rfl
  · next ends =>
    obtain ⟨cs, ends⟩ := List.getLast?_eq_some_iff.1 ends
    have nothing : (cutAtSlashes (cs ++ ['/'])).filterMap PathStep.ofPiece? =
        (cutAtSlashes cs).filterMap PathStep.ofPiece? := by
      rw [cutAtSlashes_append, List.filterMap_append]
      exact List.append_nil _
    have begins : PathStep.ofBeginning? (cs ++ '/' :: name.toList) =
        PathStep.ofBeginning? (cs ++ ['/']) := by
      cases cs with
      | nil => rfl
      | cons c cs =>
        rw [PathStep.ofBeginning?_append (List.cons_ne_nil _ _),
          PathStep.ofBeginning?_append (List.cons_ne_nil _ _)]
    rw [String.toList_append, ends, List.append_assoc, List.singleton_append, begins, nothing,
      proper.filterMap_cutAtSlashes, List.append_assoc]
  · next last other ends =>
    have some : path.toList ≠ [] := by
      intro empty
      rw [empty] at ends
      cases ends
    rw [String.toList_append, String.toList_append, slash, List.append_assoc,
      List.singleton_append, PathStep.ofBeginning?_append some, proper.filterMap_cutAtSlashes,
      List.append_assoc]

/-! ### Below a root -/

section Below

variable {root : String} {location other : Location}

theorem pathSteps_pathBelow (proper : ∀ name ∈ location, IsEntryName name) :
    pathSteps (pathBelow root location) = pathSteps root ++ location.map .entry := by
  induction location generalizing root with
  | nil => exact (List.append_nil _).symm
  | cons name names ih =>
    obtain ⟨first, others⟩ := List.forall_mem_cons.1 proper
    rw [pathBelow, ih others, pathSteps_joinPath root first, List.append_assoc]
    rfl

/-- The paths of different locations are told apart by the order. -/
theorem location_eq_of_pathRank_eq (proper : ∀ name ∈ location, IsEntryName name)
    (proper' : ∀ name ∈ other, IsEntryName name)
    (same : pathRank (pathBelow root location) = pathRank (pathBelow root other)) :
    location = other := by
  have steps := List.map_injective_iff.2 PathStep.rank_injective same
  rw [pathSteps_pathBelow proper, pathSteps_pathBelow proper'] at steps
  exact List.map_injective_iff.2 (fun _ _ => PathStep.entry.inj) (List.append_cancel_left steps)

end Below

/-! ### The order of paths -/

theorem pathBefore_iff {path other : String} :
    pathBefore path other = true ↔ pathRank path < pathRank other := by
  rw [pathBefore, List.lex_eq_true_iff_lex]
  simp only [List.lex_eq_true_iff_lex, decide_eq_true_eq]
  rfl

-- As texts they come the other way round.
example : pathBefore "src/a/b.tek" "src/a.tek" = true := by decide +kernel

/-! ### Extensions -/

theorem forall_ne_dot {text : String} (noDot : '.' ∉ text.toList) :
    ∀ c ∈ text.toList.reverse, decide (c ≠ '.') = true :=
  fun _ there => decide_eq_true (ne_of_mem_of_not_mem (List.mem_reverse.1 there) noDot)

theorem toList_append_dot (stem extension : String) :
    (stem ++ "." ++ extension).toList = stem.toList ++ '.' :: extension.toList := by
  have dot : ("." : String).toList = ['.'] := rfl
  rw [String.toList_append, String.toList_append, dot, List.append_assoc, List.singleton_append]

theorem extension?_of_noDot {name : String} (noDot : '.' ∉ name.toList) :
    extension? name = none := by
  rw [extension?, List.dropWhile_eq_nil_iff.2 (forall_ne_dot noDot)]
  exact ite_self _

theorem extension?_append (stem : String) {extension : String} (noDot : '.' ∉ extension.toList) :
    extension? (stem ++ "." ++ extension) =
      if stem = "" ∨ stem ++ "." ++ extension = ".." then none else some extension := by
  have cut : (stem ++ "." ++ extension).toList.reverse =
      extension.toList.reverse ++ '.' :: stem.toList.reverse := by
    rw [toList_append_dot, List.reverse_append, List.reverse_cons, List.append_assoc,
      List.singleton_append]
  rw [extension?, cut, List.dropWhile_append_of_pos (forall_ne_dot noDot),
    List.takeWhile_append_of_pos (forall_ne_dot noDot)]
  by_cases dots : stem ++ "." ++ extension = ".."
  · rw [if_pos dots, if_pos (.inr dots)]
  · rw [if_neg dots]
    cases front : stem.toList.reverse with
    | nil =>
      have empty : stem = "" := String.toList_eq_nil_iff.1 (List.reverse_eq_nil_iff.1 front)
      rw [if_pos (.inl empty)]
      rfl
    | cons c cs =>
      have some : stem ≠ "" := by
        rintro rfl
        cases front
      rw [if_neg (not_or.2 ⟨some, dots⟩)]
      simp

/-- The extension is what stands behind the last dot, and something stands in front of that dot. -/
theorem extension?_eq_some_iff {name extension : String} :
    extension? name = some extension ↔
      name ≠ ".." ∧ '.' ∉ extension.toList ∧
        ∃ stem, stem ≠ "" ∧ name = stem ++ "." ++ extension := by
  constructor
  · intro found
    have dot : '.' ∈ name.toList := by
      by_contra noDot
      rw [extension?_of_noDot noDot] at found
      cases found
    -- The last dot is the first one from behind.
    obtain ⟨behind, front, cut, noDot⟩ := List.eq_append_cons_of_mem (List.mem_reverse.2 dot)
    have whole : name = String.ofList front.reverse ++ "." ++ String.ofList behind.reverse := by
      rw [← String.toList_inj, toList_append_dot, String.toList_ofList, String.toList_ofList,
        ← List.reverse_inj, cut]
      simp
    have noDot' : '.' ∉ (String.ofList behind.reverse).toList := by
      rw [String.toList_ofList, List.mem_reverse]
      exact noDot
    rw [whole, extension?_append _ noDot'] at found
    split at found
    · cases found
    · next apart =>
      cases found
      rw [not_or] at apart
      exact ⟨whole ▸ apart.2, noDot', _, apart.1, whole⟩
  · rintro ⟨other, noDot, stem, some, rfl⟩
    rw [extension?_append stem noDot, if_neg (not_or.2 ⟨some, other⟩)]

example : extension? "a.b.tek" = some "tek" ∧ extension? ".tek" = none := by decide +kernel

end TekLang
