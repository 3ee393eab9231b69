import TekLang.Proofs.Scope.Paths

/-!
# The two sides of a class

A class has a scope for its instances and inside it one for its static members. Names are looked up
on the way out of a scope, past every class that is come to from its own static members. So neither
side of a class finds what the other side alone declares, and neither does anything that is opened
in the members of that side, however deep it lies.
-/

namespace TekLang

namespace ScopeTree

variable {tree : ScopeTree}

/-- Whether a scope is passed over on a way: it is that of a class whose static members are on the
    way, too. -/
def isPassedOver (tree : ScopeTree) (way : List ScopeId) (s : ScopeId) : Bool :=
  (tree.statics? s).any way.contains

/-- The two scopes of a class. -/
structure Sides (tree : ScopeTree) (n : Node) (own static : ScopeId) : Prop where
  instances : tree.kind? own = some .instances
  opened : tree.OpenedBy n own
  statics : tree.kind? static = some .statics
  openedToo : tree.OpenedBy n static

theorem sides_iff {n : Node} {own static : ScopeId} : tree.Sides n own static ↔
    tree.kind? own = some .instances ∧ tree.OpenedBy n own ∧
      tree.kind? static = some .statics ∧ tree.OpenedBy n static :=
  ⟨fun ⟨instances, opened, statics, too⟩ => ⟨instances, opened, statics, too⟩,
    fun ⟨instances, opened, statics, too⟩ => ⟨instances, opened, statics, too⟩⟩

instance (n : Node) (own static : ScopeId) : Decidable (tree.Sides n own static) :=
  decidable_of_iff' _ sides_iff

/-- Whether a scope was opened at one of the nodes or below it. -/
def OpenedWithin (tree : ScopeTree) (ns : List Node) (s : ScopeId) : Prop :=
  ∃ m ∈ ns, ∃ k ∈ m.descendants, tree.OpenedBy k s

instance (ns : List Node) (s : ScopeId) : Decidable (tree.OpenedWithin ns s) :=
  inferInstanceAs (Decidable (∃ m ∈ ns, _))

/-- Whether nothing that is declared in the scope `hidden` alone is found from `s`. -/
structure Hides (tree : ScopeTree) (s hidden : ScopeId) : Prop where
  passed : hidden ∉ tree.lookupChain s
  symbol : ∀ name, (∀ t, (tree.table t).has name = true → t = hidden) →
    tree.symbol? s name = none
  function : ∀ name, (∀ t, (tree.table t).hasFunction name = true → t = hidden) →
    tree.hasFunction s name = false ∧ tree.overloads s name = []

theorem Hides.of_not_mem {s hidden : ScopeId} (passed : hidden ∉ tree.lookupChain s) :
    tree.Hides s hidden where
  passed := passed
  symbol := by
    intro name only
    rw [symbol?, List.findSome?_eq_none_iff]
    intro t member
    by_contra bound
    have has : (tree.table t).has name = true := Option.isSome_iff_ne_none.2 bound
    exact passed (only t has ▸ member)
  function := by
    intro name only
    have unknown : ∀ t ∈ tree.lookupChain s, ¬(tree.table t).hasFunction name = true := by
      intro t member has
      exact passed (only t has ▸ member)
    refine ⟨List.any_eq_false.2 unknown, List.flatMap_eq_nil_iff.2 ?_⟩
    intro t member
    by_contra found
    exact unknown t member (((tree.table t).hasFunction_iff name).2 found)

/-- A scope further in only matters to the class whose static members it has. -/
theorem isPassedOver_cons {s t : ScopeId} (other : tree.statics? t ≠ some s) (way : List ScopeId) :
    tree.isPassedOver (s :: way) t = tree.isPassedOver way t := by
  unfold isPassedOver
  cases statics : tree.statics? t with
  | none => rfl
  | some u =>
    have differs : u ≠ s := fun same => other (same ▸ statics)
    simp [differs]

/-- What is not around a scope is not looked at from there. -/
theorem Hides.of_not_mem_path {s hidden : ScopeId} (outside : hidden ∉ tree.path s) :
    tree.Hides s hidden :=
  .of_not_mem fun member => outside ((skipInstances_sublist tree _).subset member)

theorem head?_lookupChain {s : ScopeId} (known : s < tree.size) :
    (tree.lookupChain s).head? = some s := by
  obtain ⟨outer, path⟩ := exists_path_eq known
  rw [lookupChain, path]
  cases outer <;> rfl

theorem isPassedOver_iff {t : ScopeId} {way : List ScopeId} :
    tree.isPassedOver way t = true ↔ ∃ s ∈ way, tree.statics? t = some s := by
  simp [isPassedOver, Option.any_eq_true, and_comm]

end ScopeTree

theorem mem_placed_of_member {n : Node} {name : Token}
    {generics bases constructors statics instances : List Node}
    (form : n.form = .classDecl name generics bases constructors statics instances) {m : Node}
    (member : m ∈ constructors ++ statics ++ instances) : (.ofMember m, m) ∈ n.placed := by
  unfold Node.placed
  rw [form]
  exact List.mem_append_right _ (mem_inMemberRegions.2 ⟨rfl, mem_inSourceOrder.2 member⟩)

namespace Builds

open ScopeTree

variable {program : Node} {tree : ScopeTree} {record : List (Node × Regions ScopeId)}
  {n : Node} {s t p own static : ScopeId}

/-- What a scope knows for its static members is a scope of static members directly inside it. -/
theorem statics?_eq_some_iff (builds : Builds program tree record) (known : t < tree.size) :
    tree.statics? t = some s ↔ tree.kind? s = some .statics ∧ tree.parent? s = some t := by
  have is : tree.get? t = some tree.scopes[t] := Array.getElem?_eq_getElem known
  rw [statics?, is, Option.bind_some, builds.statics_eq_some_iff is]
  constructor
  · rintro ⟨scope, is', static, inside⟩
    rw [kind?, parent?, is']
    exact ⟨congrArg some static, inside⟩
  · rintro ⟨kind, inside⟩
    obtain ⟨scope, is', static⟩ := Option.map_eq_some_iff.1 kind
    rw [parent?, is'] at inside
    exact ⟨scope, is', static, inside⟩

/-- The scope around static members is that of their class. -/
theorem kind?_of_parent (builds : Builds program tree record)
    (static : tree.kind? s = some .statics) (parent : tree.parent? s = some p) :
    tree.kind? p = some .instances := by
  obtain ⟨scope, is, kind⟩ := Option.map_eq_some_iff.1 static
  obtain ⟨p', outer, inside, is', instances, -⟩ := builds.mirrors.ofClass s scope is kind
  rw [parent?, is, Option.bind_some, inside] at parent
  cases parent
  rw [kind?, is']
  exact congrArg some instances

theorem ne_root_of_kind? (builds : Builds program tree record) {kind : ScopeKind}
    (is : tree.kind? s = some kind) (inner : kind ≠ .program) : s ≠ root := by
  rintro rfl
  obtain ⟨scope, is', program, -⟩ := builds.get?_root
  rw [kind?, is', Option.map_some, program] at is
  exact inner (Option.some.inj is).symm

/-- A scope is not passed over on a way from further out. -/
theorem not_isPassedOver (builds : Builds program tree record) (known : t < tree.size)
    {way : List ScopeId} (outer : ∀ s ∈ way, s ≤ t) : tree.isPassedOver way t = false := by
  rw [Bool.eq_false_iff, ne_eq, isPassedOver_iff]
  rintro ⟨s, member, statics⟩
  obtain ⟨-, inside⟩ := (builds.statics?_eq_some_iff known).1 statics
  have less := builds.lt_of_parent? inside
  exact Nat.not_lt.2 (outer s member) less

/-- The scopes that names are looked up in are those on the way out but for the classes that are
    come to from their own static members. -/
theorem lookupChain_eq_filter (builds : Builds program tree record) (known : s < tree.size) :
    tree.lookupChain s =
      (tree.path s).filter fun t => !tree.isPassedOver (tree.path s) t := by
  induction s using Nat.strongRecOn with
  | ind s ih =>
    have own : tree.isPassedOver (tree.path s) s = false :=
      builds.not_isPassedOver known fun t member => builds.le_of_mem_path member
    by_cases outermost : s = root
    · subst outermost
      rw [builds.path_root] at own ⊢
      rw [builds.lookupChain_root, List.filter_singleton, own]
      rfl
    obtain ⟨p, less, parent⟩ := builds.exists_parent known outermost
    have path := builds.path_eq parent
    rw [path] at own ⊢
    rw [List.filter_cons_of_pos (by rw [own]; rfl), lookupChain, path]
    by_cases static : tree.kind? s = some .statics
    · have known' := Nat.lt_trans less known
      have ofClass := builds.kind?_of_parent static parent
      have inner := builds.ne_root_of_kind? ofClass (by decide)
      obtain ⟨q, less', parent'⟩ := builds.exists_parent known' inner
      have passed : tree.isPassedOver (s :: p :: tree.path q) p = true :=
        isPassedOver_iff.2 ⟨s, List.mem_cons_self,
          (builds.statics?_eq_some_iff known').2 ⟨static, parent⟩⟩
      rw [builds.path_eq parent', skipInstances, if_pos static, ← lookupChain,
        ih q (Nat.lt_trans less' less) (Nat.lt_trans less' known'),
        List.filter_cons_of_neg (by rw [passed]; exact Bool.false_ne_true)]
      refine congrArg _ (List.filter_congr fun t member => ?_)
      have outer := Nat.lt_of_le_of_lt (builds.le_of_mem_path member) less'
      have statics {u : ScopeId} := builds.statics?_eq_some_iff (s := u) (Nat.lt_trans outer known')
      rw [isPassedOver_cons fun own => ?_, isPassedOver_cons fun own => ?_]
      · obtain ⟨kind, -⟩ := statics.1 own
        cases ofClass.symm.trans kind
      · obtain ⟨-, inside⟩ := statics.1 own
        cases parent.symm.trans inside
        exact Nat.lt_irrefl _ outer
    · rw [skipInstances_cons static, ← lookupChain, ih p less (Nat.lt_trans less known)]
      refine congrArg _ (List.filter_congr fun t member => ?_)
      have outer := Nat.lt_of_le_of_lt (builds.le_of_mem_path member) (Nat.lt_trans less known)
      rw [isPassedOver_cons fun statics => static ((builds.statics?_eq_some_iff outer).1 statics).1]

theorem getLast?_lookupChain (builds : Builds program tree record) (known : s < tree.size) :
    (tree.lookupChain s).getLast? = some root := by
  obtain ⟨inner, path⟩ := List.getLast?_eq_some_iff.1 (builds.getLast?_path known)
  obtain ⟨scope, is, -, -, -, statics⟩ := builds.get?_root
  have kept : tree.isPassedOver (tree.path s) root = false := by
    rw [isPassedOver, statics?, is, Option.bind_some, statics, Option.any_none]
  rw [builds.lookupChain_eq_filter known]
  conv_lhs => rw [path, List.filter_append]
  rw [← path, List.filter_singleton, kept]
  exact List.getLast?_concat ..

/-- A class has its two scopes. -/
theorem exists_sides (builds : Builds program tree record) (below : n ∈ program.descendants)
    (opens : n.form.opensStatics = true) : ∃ own static, tree.Sides n own static := by
  have instances := Form.opens?_of_opensStatics opens
  rcases builds.isDetail_or_mem_record below with detail | ⟨r, there⟩
  · cases (opens?_of_isDetail detail).symm.trans instances
  · have own := own_mem_openings r instances
    have static := statics_mem_openings r opens
    exact ⟨r.own, r.statics, (builds.has_opened there own).kind?,
      builds.openedBy_of_mem_openings there own, (builds.has_opened there static).kind?,
      builds.openedBy_of_mem_openings there static⟩

/-- They are those that the pass used for the class, the second directly inside the first. -/
theorem of_sides (builds : Builds program tree record) (below : n ∈ program.descendants)
    (sides : tree.Sides n own static) :
    ∃ r, (n, r) ∈ record ∧ own = r.own ∧ static = r.statics ∧ tree.statics? own = some static := by
  obtain ⟨r, o, there, opened, rfl⟩ := builds.exists_opening_of_openedBy below
    (builds.ne_root_of_kind? sides.instances (by decide)) sides.opened
  obtain ⟨r', o', there', opened', rfl⟩ := builds.exists_opening_of_openedBy below
    (builds.ne_root_of_kind? sides.statics (by decide)) sides.openedToo
  obtain ⟨-, rfl⟩ := builds.eq_of_id there' there rfl
  have instances := sides.instances
  rw [(builds.has_opened there opened).kind?] at instances
  have statics := sides.statics
  rw [(builds.has_opened there opened').kind?] at statics
  rcases mem_openings.1 opened with ⟨kind, opens, rfl⟩ | ⟨-, rfl⟩
  · rcases mem_openings.1 opened' with ⟨kind', opens', rfl⟩ | ⟨opens', rfl⟩
    · exact absurd (Option.some.inj statics) (Form.opens?_ne_statics opens')
    · exact ⟨r', there, rfl, rfl, builds.statics?_of_opens there opens'⟩
  · cases instances

/-- From within the static members of a class the class is passed over. -/
theorem hides_of_static_mem_path (builds : Builds program tree record)
    (statics : tree.statics? own = some static) (known : s < tree.size)
    (inside : static ∈ tree.path s) : tree.Hides s own := by
  refine .of_not_mem fun member => ?_
  rw [builds.lookupChain_eq_filter known] at member
  have kept := (List.mem_filter.1 member).2
  rw [isPassedOver_iff.2 ⟨static, inside, statics⟩] at kept
  cases kept

section Members

variable {name : Token} {generics bases constructors statics instances : List Node}

/-- Everything that is opened in static members has the scope of static members around it. -/
theorem mem_path_of_statics (builds : Builds program tree record)
    (below : n ∈ program.descendants)
    (form : n.form = .classDecl name generics bases constructors statics instances)
    (sides : tree.Sides n own static) (from' : s = static ∨ tree.OpenedWithin statics s) :
    s < tree.size ∧ static ∈ tree.path s := by
  obtain ⟨r, there, rfl, rfl, -⟩ := builds.of_sides below sides
  have first : r.statics ∈ tree.path r.statics := by
    obtain ⟨outer, path⟩ := exists_path_eq sides.openedToo.lt_size
    exact path ▸ List.mem_cons_self
  rcases from' with rfl | ⟨m, member, k, inside, opened⟩
  · exact ⟨sides.openedToo.lt_size, first⟩
  have kept := builds.regular.sides n below
  rw [form] at kept
  obtain ⟨value, side⟩ := kept.2.1 m member
  have stands := mem_placed_of_member form
    (List.mem_append_left instances (List.mem_append_right constructors member))
  rw [Region.ofMember, side] at stands
  obtain ⟨way, path, -⟩ := builds.path_of_openedBy there stands inside opened
  exact ⟨opened.lt_size, path ▸ List.mem_append_right way first⟩

/-- Nothing that is opened in constructors or members of instances has. -/
theorem not_mem_path_of_instances (builds : Builds program tree record)
    (below : n ∈ program.descendants)
    (form : n.form = .classDecl name generics bases constructors statics instances)
    (sides : tree.Sides n own static)
    (from' : s = own ∨ tree.OpenedWithin (constructors ++ instances) s) :
    static ∉ tree.path s := by
  obtain ⟨r, there, rfl, rfl, knows⟩ := builds.of_sides below sides
  have further : r.statics ∉ tree.path r.own := by
    obtain ⟨-, parent⟩ := (builds.statics?_eq_some_iff sides.opened.lt_size).1 knows
    intro member
    exact Nat.lt_irrefl _ (Nat.lt_of_lt_of_le (builds.lt_of_parent? parent)
      (builds.le_of_mem_path member))
  rcases from' with rfl | ⟨m, member, k, inside, opened⟩
  · exact further
  have kept := builds.regular.sides n below
  rw [form] at kept
  have stands : (Region.own, m) ∈ n.placed := by
    rcases List.mem_append.1 member with constructs | ofInstances
    · obtain ⟨params, body, constructor⟩ := kept.1 m constructs
      have stands := mem_placed_of_member form
        (List.mem_append_left instances (List.mem_append_left statics constructs))
      rwa [Region.ofMember, constructor] at stands
    · obtain ⟨value, side⟩ := kept.2.2 m ofInstances
      have stands := mem_placed_of_member form
        (List.mem_append_right (constructors ++ statics) ofInstances)
      rwa [Region.ofMember, side] at stands
  obtain ⟨way, path, within⟩ := builds.path_of_openedBy there stands inside opened
  rw [path, List.mem_append, not_or]
  refine ⟨fun there => ?_, further⟩
  -- The class stands above its members, so no member has opened the scope of the class.
  obtain ⟨j, under, opened⟩ := within _ there
  have child := Node.mem_children_of_mem_placed stands
  have same : j = n := builds.eq_of_openedBy
    ((Node.descendants_sublist below).subset (Node.mem_descendants_of_child child under)) below
    opened sides.openedToo
  have smaller := Node.length_descendants_lt child
  have part := (Node.descendants_sublist under).length_le
  rw [same] at part
  exact Nat.not_lt.2 part smaller

end Members

end Builds

/-- Names are looked up on the way out to the scope of the program, past just those classes that are
    come to from their own static members. So what only the instances of a class declare is not
    found from its static members or from anything that is opened in them, and what only its static
    members declare is not found from its instances or from anything that is opened in those or in
    its constructors. -/
theorem lookup_keeps_sides_apart (tokens : List Token) {tree : ScopeTree}
    (built : buildScopes (parse tokens).program = .ok tree) :
    (∀ s < tree.size, ∃ way, tree.Outwards s way ∧
      tree.lookupChain s = way.filter (fun t => !tree.isPassedOver way t) ∧
      (tree.lookupChain s).head? = some s ∧ (tree.lookupChain s).Nodup ∧
      (tree.lookupChain s).getLast? = some ScopeTree.root) ∧
    ∀ n ∈ (parse tokens).program.descendants,
      ∀ name generics bases constructors statics instances,
        n.form = .classDecl name generics bases constructors statics instances →
        (∃ own static, tree.Sides n own static) ∧ ∀ own static, tree.Sides n own static →
          (∀ s, s = static ∨ tree.OpenedWithin statics s → tree.Hides s own) ∧
          ∀ s, s = own ∨ tree.OpenedWithin (constructors ++ instances) s → tree.Hides s static := by
  obtain ⟨record, builds⟩ := builds_of_ok (parse_isRegular tokens) built
  constructor
  · intro s known
    have chain := builds.lookupChain_eq_filter known
    have ordered := builds.pairwise_path known
    have distinct : (tree.lookupChain s).Nodup := by
      rw [chain]
      exact (ordered.imp fun less => Nat.ne_of_gt less).filter _
    exact ⟨tree.path s, builds.outwards_path known, chain, ScopeTree.head?_lookupChain known,
      distinct, builds.getLast?_lookupChain known⟩
  · intro n below name generics bases constructors statics instances form
    refine ⟨builds.exists_sides below (by rw [form]; rfl), fun own static sides => ⟨?_, ?_⟩⟩
    · intro s from'
      obtain ⟨r, there, rfl, rfl, knows⟩ := builds.of_sides below sides
      obtain ⟨known, inside⟩ := builds.mem_path_of_statics below form sides from'
      exact builds.hides_of_static_mem_path knows known inside
    · intro s from'
      exact .of_not_mem_path (builds.not_mem_path_of_instances below form sides from')

/-- The static members of a construct. Only classes have any. -/
def Form.staticMembers {α : Type} : Form α → List α
  | classDecl _ _ _ _ statics _ => statics
  | _ => []

/-- A block in a static method of a class that stands in another static method looks past both
    classes. -/
theorem lookup_keeps_sides_apart_nested :
    let program := (parse (lex ("class A\n  var x\n  static function f()\n    class B\n" ++
      "      static function g()\n        if x\n          x\n")).tokens).program
    ∃ tree, buildScopes program = .ok tree ∧ (tree.table 1).has "x" = true ∧
      tree.path 7 = [7, 6, 5, 4, 3, 2, 1, 0] ∧ tree.lookupChain 7 = [7, 6, 5, 3, 2, 0] ∧
      tree.Hides 7 1 := by
  intro program
  have test : (buildScopes program).toOption.any (fun tree => program.descendants.any fun n =>
      decide (tree.Sides n 1 2 ∧ tree.OpenedWithin n.form.staticMembers 7 ∧
        (tree.table 1).has "x" = true ∧ tree.path 7 = [7, 6, 5, 4, 3, 2, 1, 0] ∧
        tree.lookupChain 7 = [7, 6, 5, 3, 2, 0])) = true := by
    decide +kernel
  obtain ⟨tree, built, test⟩ := exists_of_any test
  obtain ⟨n, below, test⟩ := List.any_eq_true.1 test
  obtain ⟨sides, within, has, path, chain⟩ := of_decide_eq_true test
  cases form : n.form with
  | classDecl name generics bases constructors statics instances =>
    rw [form] at within
    obtain ⟨-, apart⟩ := (lookup_keeps_sides_apart _ built).2 n below _ _ _ _ _ _ form
    exact ⟨tree, built, has, path, chain, (apart 1 2 sides).1 7 (.inr within)⟩
  | _ =>
    rw [form] at within
    obtain ⟨m, none, -⟩ := within
    cases none

end TekLang
