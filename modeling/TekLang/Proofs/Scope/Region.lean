import Mathlib.Data.List.Nodup
import TekLang.Proofs.Node.Reading
import TekLang.Walk

/-!
# Regions

A constituent stands in the region around its node or in one of the regions that the node opens.
`Node.placed` lists the children of a node with their regions, and `Walk.node_eq` says that a walk
is nothing but going through that list. What every walk does, whatever the scopes are, follows from
it by induction on the tree.
-/

namespace TekLang

/-- Where a constituent stands: in the region around the node, in the one that the node opens, or,
    for the static members of a class, in the second one that it opens. -/
inductive Region
  | around | own | statics
deriving DecidableEq, Inhabited, Repr

/-- Something for each region of a node. -/
structure Regions (α : Type) where
  around : α
  own : α
  statics : α

namespace Regions

variable {α : Type}

/-- What belongs to a region. -/
def get (r : Regions α) : Region → α
  | .around => r.around
  | .own => r.own
  | .statics => r.statics

end Regions

/-- Where a member of a class stands. -/
def Region.ofMember (member : Node) : Region :=
  match member.form with
  | .classMember true _ => .statics
  | _ => .own

/-- Nodes that all stand in one region. -/
def inRegion (region : Region) (ns : List Node) : List (Region × Node) := ns.map (region, ·)

@[simp] theorem map_snd_inRegion (region : Region) (ns : List Node) :
    (inRegion region ns).map (·.2) = ns := by
  unfold inRegion
  rw [List.map_map]
  exact List.map_id _

theorem mem_inRegion {region region' : Region} {ns : List Node} {n : Node} :
    (region, n) ∈ inRegion region' ns ↔ region = region' ∧ n ∈ ns := by
  simp [inRegion, eq_comm, and_comm]

/-- Members of a class, each in its region. -/
def inMemberRegions (members : List Node) : List (Region × Node) :=
  members.map fun member => (.ofMember member, member)

@[simp] theorem map_snd_inMemberRegions (members : List Node) :
    (inMemberRegions members).map (·.2) = members := by
  unfold inMemberRegions
  rw [List.map_map]
  exact List.map_id _

theorem mem_inMemberRegions {region : Region} {members : List Node} {n : Node} :
    (region, n) ∈ inMemberRegions members ↔ region = .ofMember n ∧ n ∈ members := by
  simp [inMemberRegions, eq_comm, and_comm]

namespace Node

/-- The children of a node in the order of the text, with the regions that they stand in. -/
def placed (n : Node) : List (Region × Node) :=
  match n.form with
  | .functionDecl .. | .constructor .. => inRegion .own n.children
  | .classDecl _ generics bases constructors statics instances =>
    inRegion .own generics ++ inRegion .own bases ++
      inMemberRegions (inSourceOrder start (constructors ++ statics ++ instances))
  | .conditional _ condition body otherwise =>
    inRegion .around [condition] ++ inRegion .own body ++ inRegion .around otherwise.toList
  | .elseBranch _ body => inRegion .own body
  | .switchCase conditions body => inRegion .around conditions ++ inRegion .own body
  | .forEach _ type iterable body =>
    inRegion .around type.toList ++ inRegion .around [iterable] ++ inRegion .own body
  | .repeatTimes header body | .whileLoop header body =>
    inRegion .around [header] ++ inRegion .own body
  | .tryCatch body handler => inRegion .own body ++ inRegion .around [handler]
  | .catchClause _ type body => inRegion .around type.toList ++ inRegion .own body
  | _ => inRegion .around n.children

theorem map_snd_placed (n : Node) : n.placed.map (·.2) = n.children := by
  obtain ⟨id, span, form⟩ := n
  cases form <;> simp [placed, children, Form.parts]

theorem mem_children_of_mem_placed {n m : Node} {region : Region}
    (stands : (region, m) ∈ n.placed) :
    m ∈ n.children := by
  rw [← map_snd_placed]
  exact List.mem_map_of_mem (f := (·.2)) stands

theorem flatMap_placed {α : Type} (n : Node) (f : Node → List α) :
    n.placed.flatMap (fun child => f child.2) = n.children.flatMap f := by
  rw [← map_snd_placed, List.flatMap_map]

end Node

namespace Walk

/-- The scopes that a walk uses for the regions of a node that it visits in `scope`. -/
def regions (tree : ScopeTree) (scope : ScopeId) (n : Node) : Regions ScopeId :=
  let own := (tree.ownScope? scope n.id).getD scope
  ⟨scope, own, (tree.statics? own).getD own⟩

theorem memberScope_eq (r : Regions ScopeId) (member : Node) :
    memberScope r.own r.statics member = r.get (.ofMember member) := by
  obtain ⟨id, span, form⟩ := member
  cases form with
  | classMember isStatic value => cases isStatic <;> rfl
  | _ => rfl

/-- Ordering the visits to members by where the members start is ordering the members. -/
theorem members_inSourceOrder (tree : ScopeTree) (parents : List Node) (r : Regions ScopeId)
    (ms : List Node) :
    (inSourceOrder Prod.fst (members tree parents r.own r.statics ms)).flatMap Prod.snd =
      (inMemberRegions (inSourceOrder Node.start ms)).flatMap fun child =>
        node tree parents (r.get child.1) child.2 := by
  rw [members_eq, ← @map_inSourceOrder _ _ Node.start _
    (fun n => (n.start, node tree parents (memberScope r.own r.statics n) n)) fun _ => rfl]
  unfold inMemberRegions
  rw [List.flatMap_map, List.flatMap_map]
  refine List.flatMap_congr ?_
  intro member _
  rw [memberScope_eq]

/-- A walk enters a node, goes through its children in their regions and leaves it. -/
theorem node_eq (tree : ScopeTree) (parents : List Node) (scope : ScopeId) (n : Node) :
    node tree parents scope n = ⟨.enter, n, scope, parents⟩ ::
      (n.placed.flatMap (fun child =>
        node tree (n :: parents) ((regions tree scope n).get child.1) child.2) ++
          [⟨.leave, n, scope, parents⟩]) := by
  obtain ⟨id, span, form⟩ := n
  rw [node]
  cases form <;>
    simp [below, Node.placed, Node.children, Form.parts, inRegion, inMemberRegions, regions,
      Regions.get, List.flatMap_map]
  case classDecl name generics bases constructors statics instances =>
    have sorted := members_inSourceOrder tree
      (⟨id, span, .classDecl name generics bases constructors statics instances⟩ :: parents)
      (regions tree scope ⟨id, span, .classDecl name generics bases constructors statics instances⟩)
      (constructors ++ statics ++ instances)
    simpa [inMemberRegions, List.flatMap_map, regions, Regions.get] using sorted

end Walk

/-- Visits in which every node that is entered is left again, with the same scope and the same nodes
    around it, and what is entered in between is left in between. -/
inductive Nested : List Visit → Prop
  | nil : Nested []
  | node {n scope parents inner others} (within : Nested inner) (more : Nested others) :
    Nested (⟨.enter, n, scope, parents⟩ :: (inner ++ ⟨.leave, n, scope, parents⟩ :: others))

/-- The way from a node to one below it: the nodes in between, innermost first, the upper one
    included. -/
inductive Path (top : Node) : List Node → Node → Prop
  | top : Path top [] top
  | child {parents n child} (above : Path top parents n) (below : child ∈ n.children) :
    Path top (n :: parents) child

theorem Nested.append {vs ws : List Visit} (first : Nested vs) (second : Nested ws) :
    Nested (vs ++ ws) := by
  induction first with
  | nil => exact second
  | node within more _ ih =>
    rw [List.cons_append, List.append_assoc, List.cons_append]
    exact .node within ih

namespace Walk

variable (tree : ScopeTree)

/-- Walks through placed children one after another. -/
theorem nested_flatMap {children : List (Region × Node)} {f : Region × Node → List Visit}
    (each : ∀ child ∈ children, Nested (f child)) : Nested (children.flatMap f) := by
  induction children with
  | nil => exact .nil
  | cons child children ih =>
    have others := ih fun other member => each other (.tail _ member)
    exact (each child List.mem_cons_self).append others

theorem nested (parents : List Node) (scope : ScopeId) (n : Node) :
    Nested (node tree parents scope n) := by
  induction n using Node.induction_on_children generalizing parents scope with
  | step n ih =>
    have below : Nested (n.placed.flatMap fun child =>
        node tree (n :: parents) ((regions tree scope n).get child.1) child.2) := by
      apply nested_flatMap
      intro child member
      exact ih child.2 (Node.mem_children_of_mem_placed member) _ _
    rw [node_eq]
    exact .node below .nil

/-- The nodes that are entered, in their order. -/
theorem entered_eq (parents : List Node) (scope : ScopeId) (n : Node) :
    ((node tree parents scope n).filter (·.phase = .enter)).map (·.node) = n.descendants := by
  induction n using Node.induction_on_children generalizing parents scope with
  | step n ih =>
    have below : (n.placed.flatMap fun child => ((node tree (n :: parents)
        ((regions tree scope n).get child.1) child.2).filter (·.phase = .enter)).map (·.node)) =
        n.placed.flatMap fun child => child.2.descendants := by
      apply List.flatMap_congr
      intro child member
      exact ih child.2 (Node.mem_children_of_mem_placed member) _ _
    rw [node_eq, Node.descendants_eq, ← Node.flatMap_placed, ← below]
    simp [List.filter_flatMap, List.map_flatMap]

/-- The nodes that are left are the same, each as often as it is entered. -/
theorem left_perm (parents : List Node) (scope : ScopeId) (n : Node) :
    (((node tree parents scope n).filter (·.phase = .leave)).map (·.node)).Perm
      n.descendants := by
  induction n using Node.induction_on_children generalizing parents scope with
  | step n ih =>
    have below : (n.placed.flatMap fun child => ((node tree (n :: parents)
        ((regions tree scope n).get child.1) child.2).filter (·.phase = .leave)).map (·.node)).Perm
        (n.placed.flatMap fun child => child.2.descendants) := by
      apply List.Perm.flatMap_left
      intro child member
      exact ih child.2 (Node.mem_children_of_mem_placed member) _ _
    rw [Node.flatMap_placed] at below
    have behind := (below.append_right [n]).trans List.perm_append_comm
    rw [node_eq, Node.descendants_eq]
    simpa [List.filter_cons, List.filter_flatMap, List.map_flatMap] using behind

theorem path_of_mem {top : Node} {parents : List Node} {scope : ScopeId} {n : Node}
    (above : Path top parents n) :
    ∀ v ∈ node tree parents scope n, Path top v.parents v.node := by
  induction n using Node.induction_on_children generalizing parents scope with
  | step n ih =>
    rw [node_eq]
    intro v member
    rcases List.mem_cons.1 member with rfl | member
    · exact above
    · rcases List.mem_append.1 member with member | member
      · obtain ⟨child, stands, visited⟩ := List.mem_flatMap.1 member
        have below := Node.mem_children_of_mem_placed stands
        exact ih child.2 below (.child above below) v visited
      · obtain rfl := List.mem_singleton.1 member
        exact above

/-- What is visited is entered in the same scope and with the same nodes around it. -/
theorem entered_of_mem {parents : List Node} {scope : ScopeId} {n : Node} :
    ∀ v ∈ node tree parents scope n,
      ⟨.enter, v.node, v.scope, v.parents⟩ ∈ node tree parents scope n := by
  induction n using Node.induction_on_children generalizing parents scope with
  | step n ih =>
    rw [node_eq]
    intro v member
    rcases List.mem_cons.1 member with rfl | member
    · exact List.mem_cons_self
    · rcases List.mem_append.1 member with member | member
      · obtain ⟨child, stands, visited⟩ := List.mem_flatMap.1 member
        have entered := ih child.2 (Node.mem_children_of_mem_placed stands) v visited
        exact .tail _ (List.mem_append_left _ (List.mem_flatMap.2 ⟨child, stands, entered⟩))
      · obtain rfl := List.mem_singleton.1 member
        exact List.mem_cons_self

/-- A node is visited in the scope of the region of its parent where it stands. -/
theorem placed_of_mem {parents : List Node} {scope : ScopeId} {n : Node} :
    ∀ v ∈ node tree parents scope n,
      (v.parents = parents ∧ v.scope = scope ∧ v.node = n) ∨
        ∃ m s around region, v.parents = m :: around ∧
          ⟨.enter, m, s, around⟩ ∈ node tree parents scope n ∧ (region, v.node) ∈ m.placed ∧
            v.scope = (regions tree s m).get region := by
  induction n using Node.induction_on_children generalizing parents scope with
  | step n ih =>
    intro v member
    rw [node_eq] at member
    rcases List.mem_cons.1 member with rfl | member
    · exact .inl ⟨rfl, rfl, rfl⟩
    · rcases List.mem_append.1 member with member | member
      · obtain ⟨child, stands, visited⟩ := List.mem_flatMap.1 member
        rcases ih child.2 (Node.mem_children_of_mem_placed stands) v visited with
          ⟨around, place, same⟩ | ⟨m, s, around, region, above, entered, below⟩
        · refine .inr ⟨n, scope, parents, child.1, around, ?_, same ▸ stands, place⟩
          rw [node_eq]
          exact List.mem_cons_self
        · refine .inr ⟨m, s, around, region, above, ?_, below⟩
          rw [node_eq]
          exact .tail _ (List.mem_append_left _ (List.mem_flatMap.2 ⟨child, stands, entered⟩))
      · obtain rfl := List.mem_singleton.1 member
        exact .inl ⟨rfl, rfl, rfl⟩

/-- When a walk enters a node, it makes the whole walk that starts there. -/
theorem mem_of_entered {tree : ScopeTree} {parents : List Node} {scope : ScopeId} {n : Node}
    {m : Node} {s : ScopeId} {around : List Node}
    (entered : ⟨.enter, m, s, around⟩ ∈ node tree parents scope n) :
    ∀ v ∈ node tree around s m, v ∈ node tree parents scope n := by
  induction n using Node.induction_on_children generalizing parents scope with
  | step n ih =>
    intro v visits
    rw [node_eq] at entered
    rcases List.mem_cons.1 entered with same | entered
    · cases same
      exact visits
    · rcases List.mem_append.1 entered with entered | same
      · obtain ⟨part, there, entered⟩ := List.mem_flatMap.1 entered
        have inside := ih part.2 (Node.mem_children_of_mem_placed there) entered v visits
        rw [node_eq]
        exact .tail _ (List.mem_append_left _ (List.mem_flatMap.2 ⟨part, there, inside⟩))
      · cases List.mem_singleton.1 same

/-- It makes those through everything that stands in the regions of the node. -/
theorem mem_of_placed {tree : ScopeTree} {parents : List Node} {scope : ScopeId} {n : Node}
    {m child : Node} {s : ScopeId} {around : List Node} {region : Region}
    (entered : ⟨.enter, m, s, around⟩ ∈ node tree parents scope n)
    (stands : (region, child) ∈ m.placed) :
    ∀ v ∈ node tree (m :: around) ((regions tree s m).get region) child,
      v ∈ node tree parents scope n := by
  intro v visits
  refine mem_of_entered entered v ?_
  rw [node_eq]
  exact .tail _ (List.mem_append_left _ (List.mem_flatMap.2 ⟨_, stands, visits⟩))

theorem entered_of_placed {tree : ScopeTree} {parents : List Node} {scope : ScopeId} {n : Node}
    {m child : Node} {s : ScopeId} {around : List Node} {region : Region}
    (entered : ⟨.enter, m, s, around⟩ ∈ node tree parents scope n)
    (stands : (region, child) ∈ m.placed) :
    ⟨.enter, child, (regions tree s m).get region, m :: around⟩ ∈ node tree parents scope n := by
  refine mem_of_placed entered stands _ ?_
  rw [node_eq]
  exact List.mem_cons_self

/-- A walk enters every node that is below the one it starts from. -/
theorem exists_entered (tree : ScopeTree) {parents : List Node} {scope : ScopeId} {n m : Node}
    (below : m ∈ n.descendants) :
    ∃ s around, ⟨.enter, m, s, around⟩ ∈ node tree parents scope n := by
  rw [← entered_eq tree parents scope n] at below
  obtain ⟨⟨phase, m, s, around⟩, entered, rfl⟩ := List.mem_map.1 below
  obtain ⟨visits, enters⟩ := List.mem_filter.1 entered
  obtain rfl : phase = .enter := of_decide_eq_true enters
  exact ⟨s, around, visits⟩

theorem mem_descendants_of_mem {tree : ScopeTree} {parents : List Node} {scope : ScopeId} {n : Node}
    {v : Visit} (visits : v ∈ node tree parents scope n) : v.node ∈ n.descendants := by
  have entered := List.mem_filter (p := fun w : Visit => w.phase = .enter).2
    ⟨entered_of_mem tree v visits, rfl⟩
  rw [← entered_eq tree parents scope n]
  exact List.mem_map.2 ⟨_, entered, rfl⟩

/-- A node with a number of its own is entered once. -/
theorem eq_of_entered {tree : ScopeTree} {parents : List Node} {scope : ScopeId} {n : Node}
    (distinct : (n.descendants.map (·.id)).Nodup) {v w : Visit}
    (first : v ∈ node tree parents scope n) (second : w ∈ node tree parents scope n)
    (enters : v.phase = .enter) (enters' : w.phase = .enter) (same : v.node.id = w.node.id) :
    v = w := by
  let entries := (node tree parents scope n).filter (·.phase = .enter)
  have first : v ∈ entries := List.mem_filter.2 ⟨first, decide_eq_true enters⟩
  have second : w ∈ entries := List.mem_filter.2 ⟨second, decide_eq_true enters'⟩
  rw [← entered_eq tree parents scope n, List.map_map] at distinct
  exact List.inj_on_of_nodup_map distinct first second same

end Walk

end TekLang
