import TekLang.Proofs.Scope.Mirror

/-!
# Ways out of a scope

A path leads from a scope to the one around it and on to the scope of the program, through scopes
that were opened earlier and earlier. From all that is opened at a node or below it, the path leads
to the scope that the node stands in.
-/

namespace TekLang

namespace ScopeTree

variable {tree : ScopeTree}

/-- The scopes that are come to from `s` by going from each to the one around it, `s` first. -/
inductive Outwards (tree : ScopeTree) : ScopeId → List ScopeId → Prop
  | outermost {s} (known : s < tree.size) (last : tree.parent? s = none) : Outwards tree s [s]
  | inside {s p outer} (parent : tree.parent? s = some p) (others : Outwards tree p outer) :
    Outwards tree s (s :: outer)

/-- Whether a scope was opened by a node; that of the program counts as opened by its root. -/
def OpenedBy (tree : ScopeTree) (n : Node) (s : ScopeId) : Prop :=
  ∃ scope, tree.get? s = some scope ∧ scope.node = n.id

theorem openedBy_iff {n : Node} {s : ScopeId} :
    tree.OpenedBy n s ↔ (tree.get? s).map (·.node) = some n.id :=
  Option.map_eq_some_iff.symm

instance (n : Node) (s : ScopeId) : Decidable (tree.OpenedBy n s) :=
  decidable_of_iff' _ openedBy_iff

theorem OpenedBy.lt_size {n : Node} {s : ScopeId} (opened : tree.OpenedBy n s) : s < tree.size := by
  obtain ⟨scope, is, -⟩ := opened
  exact lt_of_get? is

theorem skipInstances_cons {id : ScopeId} (other : tree.kind? id ≠ some .statics)
    (outer : List ScopeId) :
    tree.skipInstances (id :: outer) = id :: tree.skipInstances outer := by
  cases outer with
  | nil => rfl
  | cons next outer => rw [skipInstances, if_neg other]

theorem skipInstances_sublist (tree : ScopeTree) (path : List ScopeId) :
    (tree.skipInstances path).Sublist path := by
  fun_induction skipInstances tree path with
  | case1 => exact .slnil
  | case2 id => exact .refl _
  | case3 id around outer skipping going =>
    split
    · exact (skipping.cons _).cons_cons _
    · exact going.cons_cons _

end ScopeTree

namespace Builds

open ScopeTree

variable {program : Node} {tree : ScopeTree} {record : List (Node × Regions ScopeId)}

theorem lt_of_mem_around (builds : Builds program tree record) {s : ScopeId} {scope : Scope}
    (is : tree.get? s = some scope) : ∀ p ∈ scope.around, p < s := by
  induction s using Nat.strongRecOn generalizing scope with
  | ind s ih =>
    intro p member
    by_cases root : s = ScopeTree.root
    · subst root
      obtain ⟨scope', is', _, _, around, _⟩ := builds.get?_root
      cases is.symm.trans is'
      rw [around] at member
      cases member
    · obtain ⟨q, less, _, around⟩ := builds.mirrors.inside s scope is root
      rw [around, ScopeTree.path] at member
      split at member
      · cases member
      · next outer is' =>
        rcases List.mem_cons.1 member with rfl | member
        · exact less
        · exact Nat.lt_trans (ih q less is' p member) less

/-- From a scope the path goes on as from the one around it. -/
theorem path_eq (builds : Builds program tree record) {s p : ScopeId}
    (inside : tree.parent? s = some p) : tree.path s = s :: tree.path p := by
  obtain ⟨scope, is, around⟩ := Option.bind_eq_some_iff.1 inside
  have other : s ≠ root := by
    rw [ne_eq, ← builds.parent?_eq_none_iff is, around]
    exact nofun
  obtain ⟨q, -, around', path⟩ := builds.mirrors.inside s scope is other
  cases around.symm.trans around'
  rw [ScopeTree.path, is, ← path]

/-- The path from a scope goes on as the path from any scope on it, and up to there it goes through
    scopes that stand inside that one. -/
theorem exists_path_append (builds : Builds program tree record) {s m : ScopeId}
    (member : m ∈ tree.path s) :
    ∃ inner, tree.path s = inner ++ tree.path m ∧ ∀ x ∈ inner, m ∈ tree.path x := by
  induction s using Nat.strongRecOn with
  | ind s ih =>
    by_cases same : m = s
    · subst same
      exact ⟨[], rfl, nofun⟩
    cases is : tree.get? s with
    | none =>
      rw [ScopeTree.path, is] at member
      cases member
    | some scope =>
      have path : tree.path s = s :: scope.around := by rw [ScopeTree.path, is]
      have further := (List.mem_cons.1 (path ▸ member)).resolve_left same
      have other : s ≠ root := by
        rintro rfl
        obtain ⟨scope', is', -, -, around, -⟩ := builds.get?_root
        cases is.symm.trans is'
        rw [around] at further
        cases further
      obtain ⟨q, less, -, around⟩ := builds.mirrors.inside s scope is other
      rw [around] at further
      obtain ⟨inner, split, within⟩ := ih q less further
      refine ⟨s :: inner, by rw [path, around, split, List.cons_append], ?_⟩
      intro x there
      rcases List.mem_cons.1 there with rfl | there
      · exact member
      · exact within x there

theorem path_root (builds : Builds program tree record) : tree.path root = [root] := by
  obtain ⟨scope, is, -, -, around, -⟩ := builds.get?_root
  rw [ScopeTree.path, is]
  exact congrArg _ around

/-- Every scope but that of the program stands inside one that was opened earlier. -/
theorem exists_parent (builds : Builds program tree record) {s : ScopeId} (known : s < tree.size)
    (other : s ≠ root) : ∃ p < s, tree.parent? s = some p := by
  have is : tree.get? s = some tree.scopes[s] := Array.getElem?_eq_getElem known
  obtain ⟨p, less, inside, -⟩ := builds.mirrors.inside s _ is other
  exact ⟨p, less, Option.bind_eq_some_iff.2 ⟨_, is, inside⟩⟩

theorem lt_of_parent? (builds : Builds program tree record) {s p : ScopeId}
    (inside : tree.parent? s = some p) : p < s := by
  obtain ⟨scope, is, around⟩ := Option.bind_eq_some_iff.1 inside
  exact builds.lt_of_mem_around is p (List.mem_of_mem_head? around)

/-- What goes on from every scope to those inside it holds of all scopes if it holds of that of the
    program. -/
@[elab_as_elim]
theorem induction_on_parents (builds : Builds program tree record) {motive : ScopeId → Prop}
    (outermost : motive root)
    (inside : ∀ s p, p < s → s < tree.size → tree.parent? s = some p → motive p → motive s)
    {s : ScopeId} (known : s < tree.size) : motive s := by
  induction s using Nat.strongRecOn with
  | ind s ih =>
    by_cases other : s = root
    · exact other ▸ outermost
    · obtain ⟨p, less, parent⟩ := builds.exists_parent known other
      exact inside s p less known parent (ih p less (Nat.lt_trans less known))

theorem outwards_path (builds : Builds program tree record) {s : ScopeId} (known : s < tree.size) :
    tree.Outwards s (tree.path s) := by
  refine builds.induction_on_parents ?outermost ?inside known
  case outermost =>
    obtain ⟨scope, is, -, -, around, -⟩ := builds.get?_root
    rw [builds.path_root]
    refine .outermost (lt_of_get? is) ?_
    rw [parent?, is, Option.bind_some, Scope.parent?, around, List.head?_nil]
  case inside =>
    intro s p _ _ parent ih
    rw [builds.path_eq parent]
    exact .inside parent ih

theorem getLast?_path (builds : Builds program tree record) {s : ScopeId} (known : s < tree.size) :
    (tree.path s).getLast? = some root := by
  refine builds.induction_on_parents ?outermost ?inside known
  case outermost => rw [builds.path_root, List.getLast?_singleton]
  case inside =>
    intro s p _ _ parent ih
    rw [builds.path_eq parent, List.getLast?_cons, ih, Option.getD_some]

theorem pairwise_path (builds : Builds program tree record) {s : ScopeId} (known : s < tree.size) :
    (tree.path s).Pairwise (· > ·) := by
  refine builds.induction_on_parents ?outermost ?inside known
  case outermost =>
    rw [builds.path_root]
    exact List.pairwise_singleton _ _
  case inside =>
    intro s p _ _ parent ih
    have path := builds.path_eq parent
    obtain ⟨scope, is, -⟩ := Option.bind_eq_some_iff.1 parent
    refine path ▸ ih.cons fun q member => ?_
    have around : scope.around = tree.path p := by
      rw [ScopeTree.path, is] at path
      exact List.tail_eq_of_cons_eq path
    exact builds.lt_of_mem_around is q (around ▸ member)

theorem le_of_mem_path (builds : Builds program tree record) {s t : ScopeId}
    (member : t ∈ tree.path s) : t ≤ s := by
  cases is : tree.get? s with
  | none =>
    rw [ScopeTree.path, is] at member
    cases member
  | some scope =>
    rw [ScopeTree.path, is] at member
    rcases List.mem_cons.1 member with rfl | member
    · exact Nat.le_refl _
    · exact Nat.le_of_lt (builds.lt_of_mem_around is t member)

section Opened

variable {n m k : Node} {r : Regions ScopeId} {s : ScopeId} {region : Region}

theorem openedBy_of_mem_openings (builds : Builds program tree record) (there : (n, r) ∈ record)
    {o : Opening ScopeId} (opened : o ∈ n.openings r) : tree.OpenedBy n o.own := by
  obtain ⟨scope, is, -, node, -⟩ := (builds.has_opened there opened).found
  refine ⟨scope, is, node.trans ?_⟩
  rcases mem_openings.1 opened with ⟨kind, -, rfl⟩ | ⟨-, rfl⟩ <;> rfl

/-- From a region of a node the path leads to the scope around the node, through nothing but what
    the node has opened. -/
theorem path_get (builds : Builds program tree record) (there : (n, r) ∈ record)
    (region : Region) :
    ∃ way, tree.path (r.get region) = way ++ tree.path r.around ∧
      ∀ x ∈ way, tree.OpenedBy n x := by
  have fits : r.Fits n.form := builds.runs.fits _ there
  have own : ∃ way, tree.path r.own = way ++ tree.path r.around ∧
      ∀ x ∈ way, tree.OpenedBy n x := by
    cases opens : n.form.opens? with
    | none => exact ⟨[], by rw [fits.own opens, List.nil_append], nofun⟩
    | some kind =>
      have opened := own_mem_openings r opens
      refine ⟨[r.own], (builds.has_opened there opened).path_eq, ?_⟩
      intro x member
      obtain rfl := List.mem_singleton.1 member
      exact builds.openedBy_of_mem_openings there opened
  cases region with
  | around => exact ⟨[], rfl, nofun⟩
  | own => exact own
  | statics =>
    cases opens : n.form.opensStatics with
    | false => rwa [Regions.get, fits.statics opens]
    | true =>
      have opened := statics_mem_openings r opens
      obtain ⟨way, path, inside⟩ := own
      refine ⟨r.statics :: way, ?_, ?_⟩
      · rw [List.cons_append, ← path]
        exact (builds.has_opened there opened).path_eq
      · intro x member
        rcases List.mem_cons.1 member with rfl | member
        · exact builds.openedBy_of_mem_openings there opened
        · exact inside x member

/-- A scope was opened by one node of the program. -/
theorem eq_of_openedBy (builds : Builds program tree record) (below : n ∈ program.descendants)
    (below' : m ∈ program.descendants) (opened : tree.OpenedBy n s) (opened' : tree.OpenedBy m s) :
    n = m := by
  obtain ⟨scope, is, node⟩ := opened
  obtain ⟨scope', is', node'⟩ := opened'
  cases is.symm.trans is'
  exact List.inj_on_of_nodup_map builds.regular.distinct below below' (node.symm.trans node')

theorem ne_root_of_openedBy (builds : Builds program tree record) (below : n ∈ program.descendants)
    (inner : n ≠ program) (opened : tree.OpenedBy n s) : s ≠ root := by
  rintro rfl
  obtain ⟨scope, is, -, node, -⟩ := builds.get?_root
  exact inner (builds.eq_of_openedBy below program.mem_descendants_self opened ⟨scope, is, node⟩)

/-- What a node has opened was opened when the pass came to it. -/
theorem exists_opening_of_openedBy (builds : Builds program tree record)
    (below : n ∈ program.descendants) (other : s ≠ root) (opened : tree.OpenedBy n s) :
    ∃ r o, (n, r) ∈ record ∧ o ∈ n.openings r ∧ o.own = s := by
  obtain ⟨m, r, o, there, opening, rfl⟩ := builds.exists_opening opened.lt_size other
  obtain rfl := builds.eq_of_openedBy (builds.mem_descendants there) below
    (builds.openedBy_of_mem_openings there opening) opened
  exact ⟨r, o, there, opening, rfl⟩

/-- Where a walk comes to below a node, the path leads to the scope in which it came to the node,
    through nothing but what is opened at the node and below it. -/
theorem path_of_mem_walk (builds : Builds program tree record) {parents : List Node}
    (part : ∀ v ∈ Walk.node tree parents s n, v ∈ walk program tree) :
    ∀ v ∈ Walk.node tree parents s n, ∃ way, tree.path v.scope = way ++ tree.path s ∧
      ∀ x ∈ way, ∃ k ∈ n.descendants, tree.OpenedBy k x := by
  induction n using Node.induction_on_children generalizing parents s with
  | step n ih =>
    rw [Walk.node_eq] at part ⊢
    have enters := part _ List.mem_cons_self
    intro v visits
    rw [List.mem_cons, List.mem_append, List.mem_singleton] at visits
    rcases visits with rfl | visits | rfl
    · exact ⟨[], rfl, nofun⟩
    · obtain ⟨child, stands, visits⟩ := List.mem_flatMap.1 visits
      have member := Node.mem_children_of_mem_placed stands
      obtain ⟨way, path, inside⟩ := ih child.2 member (fun w visits' => part w
        (.tail _ (List.mem_append_left _ (List.mem_flatMap.2 ⟨child, stands, visits'⟩)))) v visits
      have region : ∃ way, tree.path ((Walk.regions tree s n).get child.1) = way ++ tree.path s ∧
          ∀ x ∈ way, tree.OpenedBy n x := by
        rcases builds.isDetail_or_mem_record (Walk.mem_descendants_of_mem enters) with
          detail | ⟨r, there⟩
        · rw [around_of_placed_of_isDetail detail stands]
          exact ⟨[], rfl, nofun⟩
        · obtain rfl := builds.scope_eq enters there
          rw [builds.regions_get there stands]
          exact builds.path_get there child.1
      obtain ⟨outer, path', own⟩ := region
      refine ⟨way ++ outer, by rw [path, path', List.append_assoc], ?_⟩
      intro x there
      rcases List.mem_append.1 there with there | there
      · obtain ⟨k, below, opened⟩ := inside x there
        exact ⟨k, Node.mem_descendants_of_child member below, opened⟩
      · exact ⟨n, n.mem_descendants_self, own x there⟩
    · exact ⟨[], rfl, nofun⟩

/-- From what is opened at a constituent of a node or below it, the path leads to the scope of the
    region where the constituent stands. -/
theorem path_of_openedBy (builds : Builds program tree record) (there : (n, r) ∈ record)
    (stands : (region, m) ∈ n.placed) (below : k ∈ m.descendants) (opened : tree.OpenedBy k s) :
    ∃ way, tree.path s = way ++ tree.path (r.get region) ∧
      ∀ x ∈ way, ∃ k ∈ m.descendants, tree.OpenedBy k x := by
  have below' := builds.mem_descendants there
  have child := Node.mem_children_of_mem_placed stands
  have inside := Node.mem_descendants_of_child child below
  have inner : k ≠ program := by
    intro same
    have smaller := Node.length_descendants_lt child
    have part := (Node.descendants_sublist below).length_le
    have whole := (Node.descendants_sublist below').length_le
    rw [same] at part
    exact Nat.lt_irrefl _ (Nat.lt_of_le_of_lt part (Nat.lt_of_lt_of_le smaller whole))
  obtain ⟨around, enters⟩ := builds.entered there
  have part := Walk.mem_of_placed enters stands
  rw [builds.regions_get there stands] at part
  have inside' := (Node.descendants_sublist below').subset inside
  have other := builds.ne_root_of_openedBy inside' inner opened
  obtain ⟨r', o, there', opening, rfl⟩ := builds.exists_opening_of_openedBy inside' other opened
  obtain ⟨region', own⟩ : ∃ region', o.own = r'.get region' := by
    rcases mem_openings.1 opening with ⟨kind, -, rfl⟩ | ⟨-, rfl⟩
    · exact ⟨.own, rfl⟩
    · exact ⟨.statics, rfl⟩
  obtain ⟨s', around', entered⟩ : ∃ s' around', ⟨.enter, k, s', around'⟩ ∈
    Walk.node tree (n :: around) (r.get region) m := Walk.exists_entered tree below
  have scope : s' = r'.around := builds.scope_eq (part _ entered) there'
  obtain ⟨way, path, within⟩ := builds.path_of_mem_walk part _ entered
  obtain ⟨first, path', opens⟩ := builds.path_get there' region'
  refine ⟨first ++ way, by rw [own, path', ← scope, path, List.append_assoc], ?_⟩
  intro x member
  rcases List.mem_append.1 member with member | member
  · exact ⟨k, below, opens x member⟩
  · exact within x member

end Opened

end Builds

end TekLang
