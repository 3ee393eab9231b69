import Mathlib.Data.List.Nodup
import TekLang.Source.Entry

/-!
# Places in a tree of entries

In a tree the entries of a directory have different names, and names that can be steps of a path. So
a location leads to one entry at most, going through the tree comes to each entry once, and whatever
a path leads to has a location.
-/

namespace TekLang

/-- What an entry of a directory may be called. -/
structure IsEntryName (name : String) : Prop where
  ne_empty : name ≠ ""
  ne_here : name ≠ "."
  ne_above : name ≠ ".."
  noSlash : '/' ∉ name.toList

instance : DecidablePred IsEntryName := fun name =>
  decidable_of_iff (name ≠ "" ∧ name ≠ "." ∧ name ≠ ".." ∧ '/' ∉ name.toList)
    ⟨fun ⟨a, b, c, d⟩ => ⟨a, b, c, d⟩, fun ⟨a, b, c, d⟩ => ⟨a, b, c, d⟩⟩

namespace Entry

/-- What stands at a location below an entry, if there is anything. -/
def at? : Entry → Location → Option Entry
  | here, [] => some here
  | .file _, _ :: _ => none
  | .directory entries, name :: names =>
    match entries.lookup name with
    | none => none
    | some entry => entry.at? names

/-- All directories name their entries, each by a name of its own. -/
inductive IsTree : Entry → Prop
  | file (contents) : IsTree (.file contents)
  | directory {entries} (apart : (entries.map Prod.fst).Nodup)
    (named : ∀ found ∈ entries, IsEntryName found.1) (trees : ∀ found ∈ entries, IsTree found.2) :
    IsTree (.directory entries)

/-- All entries at `here` or below it are on the list, each with its location, and no location is
    there twice. -/
structure GoneThrough (here : Entry) (walked : List (Location × Entry)) : Prop where
  mem_iff : ∀ location found, (location, found) ∈ walked ↔ here.at? location = some found
  nodup : (walked.map Prod.fst).Nodup

/-! ### Locations -/

section Locations

variable {here found : Entry} {entries : List (String × Entry)} {name : String}
  {location : Location}

theorem at?_directory_cons :
    (directory entries).at? (name :: location) = (entries.lookup name).bind (·.at? location) := by
  rw [at?]
  cases entries.lookup name <;> rfl

theorem at?_append (here : Entry) (location further : Location) :
    here.at? (location ++ further) = (here.at? location).bind (·.at? further) := by
  induction location generalizing here with
  | nil => rfl
  | cons name names ih =>
    cases here with
    | file contents => rfl
    | directory entries =>
      rw [List.cons_append, at?_directory_cons, at?_directory_cons, Option.bind_assoc]
      exact congrArg _ (funext ih)

theorem mem_of_lookup (listed : entries.lookup name = some found) : (name, found) ∈ entries := by
  obtain ⟨before, behind, rfl, -⟩ := List.lookup_eq_some_iff.1 listed
  exact List.mem_append_right _ List.mem_cons_self

theorem lookup_eq_some_iff (apart : (entries.map Prod.fst).Nodup) :
    entries.lookup name = some found ↔ (name, found) ∈ entries := by
  refine ⟨mem_of_lookup, fun there => ?_⟩
  obtain ⟨before, behind, rfl⟩ := List.append_of_mem there
  refine List.lookup_eq_some_iff.2 ⟨before, behind, rfl, fun other among => bne_iff_ne.2 ?_⟩
  rw [List.map_append, List.map_cons] at apart
  rintro rfl
  exact List.disjoint_of_nodup_append apart (List.mem_map_of_mem among) List.mem_cons_self

namespace IsTree

theorem at? (tree : here.IsTree) (there : here.at? location = some found) : found.IsTree := by
  induction location generalizing here with
  | nil =>
    cases there
    exact tree
  | cons name names ih =>
    cases tree with
    | file => cases there
    | directory apart named trees =>
      rw [at?_directory_cons] at there
      obtain ⟨entry, listed, there⟩ := Option.bind_eq_some_iff.1 there
      exact ih (trees _ (mem_of_lookup listed)) there

theorem isEntryName (tree : here.IsTree) (there : here.at? location = some found) :
    ∀ name ∈ location, IsEntryName name := by
  induction location generalizing here with
  | nil => exact List.forall_mem_nil _
  | cons name names ih =>
    cases tree with
    | file => cases there
    | directory apart named trees =>
      rw [at?_directory_cons] at there
      obtain ⟨entry, listed, there⟩ := Option.bind_eq_some_iff.1 there
      have among := mem_of_lookup listed
      exact List.forall_mem_cons.2 ⟨named _ among, ih (trees _ among) there⟩

end IsTree

/-! ### Going through a tree -/

theorem walkIn_eq_flatMap (entries : List (String × Entry)) :
    walkIn entries = entries.flatMap fun found =>
      found.2.walk.map fun (location, entry) => (found.1 :: location, entry) := by
  induction entries with
  | nil => rw [walkIn, List.flatMap_nil]
  | cons found others ih => rw [walkIn, ih, List.flatMap_cons]

theorem IsTree.mem_walk_iff (tree : here.IsTree) :
    (location, found) ∈ here.walk ↔ here.at? location = some found := by
  induction tree generalizing location with
  | file contents =>
    rw [walk]
    cases location <;> simp [Entry.at?, eq_comm]
  | @directory entries apart named trees ih =>
    rw [walk, walkIn_eq_flatMap]
    cases location with
    | nil => simp [Entry.at?, eq_comm]
    | cons name names =>
      rw [at?_directory_cons, Option.bind_eq_some_iff]
      simp only [List.mem_cons, List.mem_flatMap, List.mem_map, Prod.mk.injEq, List.cons.injEq]
      constructor
      · rintro (⟨⟨⟩, -⟩ | ⟨entry, among, place, walked, ⟨rfl, rfl⟩, rfl⟩)
        exact ⟨entry.2, (lookup_eq_some_iff apart).2 among, (ih _ among).1 walked⟩
      · rintro ⟨entry, listed, there⟩
        have among := mem_of_lookup listed
        exact .inr ⟨_, among, _, (ih _ among).2 there, ⟨rfl, rfl⟩, rfl⟩

theorem IsTree.nodup_walk (tree : here.IsTree) : (here.walk.map Prod.fst).Nodup := by
  induction tree with
  | file contents => rw [walk]; exact List.nodup_singleton _
  | @directory entries apart named trees ih =>
    have locations : (walkIn entries).map Prod.fst = entries.flatMap fun found =>
        (found.2.walk.map Prod.fst).map (found.1 :: ·) := by
      rw [walkIn_eq_flatMap, List.map_flatMap]
      simp only [List.map_map]
      rfl
    rw [walk, List.map_cons, List.nodup_cons, locations]
    refine ⟨by simp, List.nodup_flatMap.2 ⟨fun found among => ?_, ?_⟩⟩
    · exact (ih found among).map fun _ _ same => (List.cons.inj same).2
    · refine (List.pairwise_map.1 apart).imp fun other => ?_
      intro location first second
      obtain ⟨_, -, rfl⟩ := List.mem_map.1 first
      obtain ⟨_, -, same⟩ := List.mem_map.1 second
      exact other (List.cons.inj same).1.symm

theorem IsTree.goneThrough (tree : here.IsTree) : here.GoneThrough here.walk :=
  ⟨fun _ _ => tree.mem_walk_iff, tree.nodup_walk⟩

end Locations

/-! ### Following a path -/

theorem exists_at_of_follow {root found : Entry} {steps : List String} {here : Entry}
    {above : List Entry}
    (within : ∀ entry ∈ here :: above, ∃ location, root.at? location = some entry)
    (leads : follow steps here above = some found) :
    ∃ location, root.at? location = some found := by
  induction steps generalizing here above with
  | nil =>
    cases leads
    exact within _ List.mem_cons_self
  | cons step steps ih =>
    cases here with
    | file => cases leads
    | directory entries =>
      unfold follow at leads
      split at leads
      · exact ih within leads
      split at leads
      · cases above with
        | nil => cases leads
        | cons parent above => exact ih (fun _ among => within _ (.tail _ among)) leads
      · cases listed : entries.lookup step with
        | none =>
          rw [listed] at leads
          cases leads
        | some entry =>
          rw [listed] at leads
          obtain ⟨location, there⟩ := within _ List.mem_cons_self
          refine ih (List.forall_mem_cons.2 ⟨⟨location ++ [step], ?_⟩, within⟩) leads
          rw [at?_append, there, Option.bind_some, at?_directory_cons, listed]
          rfl

/-- Whatever way a path takes, also back to directories above, it stays among the entries of the
    tree. -/
theorem exists_at_of_find? {here found : Entry} {path : String}
    (leads : here.find? path = some found) : ∃ location, here.at? location = some found := by
  unfold find? at leads
  split at leads
  · cases leads
  · refine exists_at_of_follow ?_ leads
    exact List.forall_mem_singleton.2 ⟨[], rfl⟩

end Entry

end TekLang
