import TekLang.Proofs.Lint.Reports
import TekLang.Proofs.Lint.Shadowing

/-!
# Members of a class and the code of its methods

What a class has for members is no obstacle to what its methods and constructors declare. From a
method the rule goes on outside the class, but it does so for plain names alone and from the
instances alone: functions are looked for all the way out, so that a method of the same name counts,
and from a static method the walk ends at the static members, so that these count.
-/

namespace TekLang

namespace ScopeTree

variable {tree : ScopeTree}

/-- The scope around the class that one of its two scopes belongs to. -/
def aroundClass? (tree : ScopeTree) (side : ScopeId) : Option ScopeId :=
  match tree.kind? side with
  | some .instances => tree.parent? side
  | some .statics => (tree.parent? side).bind tree.parent?
  | _ => none

/-- Whether a scope is that of a method or a constructor, which stands among the members of one side
    of a class, and `outer` is the scope around the class. -/
structure IsMethod (tree : ScopeTree) (m side outer : ScopeId) : Prop where
  function : tree.kind? m = some .function
  inside : tree.parent? m = some side
  around : tree.aroundClass? side = some outer

/-- Whether nothing but the node declares the name in a scope, neither as a symbol nor as a
    function. -/
structure OnlyBy (tree : ScopeTree) (s : ScopeId) (name : String) (node : NodeId) : Prop where
  bound : ∀ entry, (tree.table s).get? name = some entry → entry.node = node
  function : (tree.table s).hasFunction name = false

theorem isMethod_iff {m side outer : ScopeId} : tree.IsMethod m side outer ↔
    tree.kind? m = some .function ∧ tree.parent? m = some side ∧
      tree.aroundClass? side = some outer :=
  ⟨fun method => ⟨method.function, method.inside, method.around⟩,
    fun ⟨function, inside, around⟩ => ⟨function, inside, around⟩⟩

instance (m side outer : ScopeId) : Decidable (tree.IsMethod m side outer) :=
  decidable_of_iff' _ isMethod_iff

theorem onlyBy_iff {s : ScopeId} {name : String} {node : NodeId} : tree.OnlyBy s name node ↔
    ((tree.table s).get? name).all (·.node = node) = true ∧
      (tree.table s).hasFunction name = false := by
  simp only [Option.all_eq_true, decide_eq_true_eq]
  exact ⟨fun only => ⟨only.bound, only.function⟩, fun ⟨bound, function⟩ => ⟨bound, function⟩⟩

instance (s : ScopeId) (name : String) (node : NodeId) : Decidable (tree.OnlyBy s name node) :=
  decidable_of_iff' _ onlyBy_iff

instance (s : ScopeId) (name : String) : Decidable (tree.Sees s name) :=
  inferInstanceAs (Decidable (_ ∨ _))

/-- What is looked through from further in is looked through from a scope in between, up to
    there. -/
theorem mem_skipInstances_append {m s : ScopeId} {tail : List ScopeId}
    (other : tree.kind? m ≠ some .statics) : ∀ inner : List ScopeId,
    s ∈ tree.skipInstances (inner ++ m :: tail) → s ∈ inner ∨ s ∈ tree.skipInstances (m :: tail)
  | [], member => .inr member
  | [x], member => by
    rw [List.singleton_append, skipInstances] at member
    rcases List.mem_cons.1 member with rfl | member
    · exact .inl List.mem_cons_self
    · right
      split at member
      · rw [skipInstances_cons other]
        exact .tail _ member
      · exact member
  | x :: y :: inner, member => by
    rw [List.cons_append, List.cons_append, skipInstances] at member
    rcases List.mem_cons.1 member with rfl | member
    · exact .inl List.mem_cons_self
    · split at member
      · refine (mem_skipInstances_append other inner member).imp_left ?_
        exact fun inside => .tail _ (.tail _ inside)
      · exact (mem_skipInstances_append other (y :: inner) member).imp_left (.tail _)

end ScopeTree

namespace Redeclaration

open ScopeTree

variable {tree : ScopeTree}

/-- Where the walk of the rule gets to from further in, it gets to from a scope in between, up to
    there. -/
theorem mem_relevant_append {m s : ScopeId} {tail : List ScopeId} (other : ¬tree.IsOfClass m) :
    ∀ further : List ScopeId, s ∈ relevant tree (further ++ m :: tail) →
      s ∈ further ∨ s ∈ relevant tree (m :: tail)
  | [], member => .inr member
  | x :: further, member => by
    by_cases ofClass : tree.IsOfClass x
    · rw [List.cons_append, relevant_of_isOfClass ofClass] at member
      exact .inl (List.mem_singleton.1 member ▸ List.mem_cons_self)
    cases further with
    | nil =>
      rw [List.singleton_append, relevant_of_not_isOfClass ofClass,
        if_neg fun instances => other (.inl instances)] at member
      exact (List.mem_cons.1 member).imp_left List.mem_singleton.2
    | cons y further =>
      rw [List.cons_append, List.cons_append, relevant_of_not_isOfClass ofClass] at member
      rcases List.mem_cons.1 member with rfl | member
      · exact .inl List.mem_cons_self
      split at member
      · refine (mem_relevant_append other further member).imp_left ?_
        exact fun inside => .tail _ (.tail _ inside)
      · exact (mem_relevant_append other (y :: further) member).imp_left (.tail _)

end Redeclaration

namespace Builds

open Redeclaration ScopeTree

variable {program : Node} {tree : ScopeTree} {record : List (Node × Regions ScopeId)}

section Methods

variable {m side outer s x : ScopeId}

/-- From either side of a class names are looked up there and then outside the class. -/
theorem lookupChain_side (builds : Builds program tree record)
    (around : tree.aroundClass? side = some outer) :
    tree.lookupChain side = side :: tree.lookupChain outer := by
  unfold aroundClass? at around
  split at around
  · next instances =>
    rw [lookupChain, builds.path_eq around, skipInstances_cons (by simp [instances])]
    rfl
  · next statics =>
    obtain ⟨c, inside, around⟩ := Option.bind_eq_some_iff.1 around
    rw [lookupChain, builds.path_eq inside, builds.path_eq around, skipInstances, if_pos statics]
    rfl
  · cases around

theorem mem_lookupChain_of_isMethod (builds : Builds program tree record)
    (method : tree.IsMethod m side outer) (within : m ∈ tree.path s)
    (member : x ∈ tree.lookupChain s) :
    (x ∈ tree.path s ∧ m ∈ tree.path x) ∨ x = side ∨ x ∈ tree.lookupChain outer := by
  obtain ⟨inner, path, inside⟩ := builds.exists_path_append within
  have own := builds.path_eq method.inside
  have other : tree.kind? m ≠ some .statics := by simp [method.function]
  rw [lookupChain, path, own] at member
  rcases mem_skipInstances_append other inner member with there | there
  · exact .inl ⟨path ▸ List.mem_append_left _ there, inside x there⟩
  · rw [skipInstances_cons other] at there
    rcases List.mem_cons.1 there with rfl | there
    · exact .inl ⟨within, own ▸ List.mem_cons_self⟩
    · rw [← lookupChain, builds.lookupChain_side method.around] at there
      exact .inr (List.mem_cons.1 there)

/-- From inside a method the rule gets to the static members of the class and to no others. -/
theorem mem_relevant_of_isMethod (builds : Builds program tree record)
    (method : tree.IsMethod m side outer) (within : m ∈ tree.path s)
    (member : x ∈ relevant tree (tree.path s)) :
    (x ∈ tree.path s ∧ m ∈ tree.path x) ∨ (x = side ∧ tree.kind? side = some .statics) ∨
      x ∈ tree.lookupChain outer := by
  obtain ⟨inner, path, inside⟩ := builds.exists_path_append within
  have own := builds.path_eq method.inside
  have other : ¬tree.IsOfClass m := by simp [IsOfClass, method.function]
  rw [path, own] at member
  rcases mem_relevant_append other inner member with there | there
  · exact .inl ⟨path ▸ List.mem_append_left _ there, inside x there⟩
  have around := method.around
  unfold aroundClass? at around
  split at around
  · next instances =>
    rw [builds.path_eq around, relevant_of_not_isOfClass other, if_pos instances] at there
    rcases List.mem_cons.1 there with rfl | there
    · exact .inl ⟨within, own ▸ List.mem_cons_self⟩
    · exact .inr (.inr (relevant_subset tree _ there))
  · next statics =>
    obtain ⟨c, inside, around⟩ := Option.bind_eq_some_iff.1 around
    rw [builds.path_eq inside, relevant_of_not_isOfClass other, if_neg (by simp [statics]),
      relevant_of_isOfClass (.inr statics)] at there
    rcases List.mem_cons.1 there with rfl | there
    · exact .inl ⟨within, own ▸ List.mem_cons_self⟩
    · exact .inr (.inl ⟨List.mem_singleton.1 there, statics⟩)
  · cases around

end Methods

end Builds

namespace Redeclaration

open ScopeTree

variable {program : Node} {tree : ScopeTree} {record : List (Node × Regions ScopeId)} {v : Visit}

/-- A declaration is made where it stands or in a block that it opens there. -/
theorem home_eq_or (builds : Builds program tree record) (visits : v ∈ walk program tree) :
    home tree v = v.scope ∨
      tree.kind? (home tree v) = some .block ∧ tree.parent? (home tree v) = some v.scope := by
  have opened (opens : v.node.form.opens? = some .block) :
      tree.kind? ((tree.ownScope? v.scope v.node.id).getD v.scope) = some .block ∧
        tree.parent? ((tree.ownScope? v.scope v.node.id).getD v.scope) = some v.scope := by
    rcases builds.isDetail_or_mem_record (Walk.mem_descendants_of_mem visits) with
      detail | ⟨r, there⟩
    · have own : Opens program v.node .own _ := .own opens
      exact absurd detail (not_isDetail_of_opens own nofun)
    · have has := builds.has_opened there (own_mem_openings r opens)
      obtain ⟨scope, is, -⟩ := has.found
      rw [builds.scope_eq visits there, builds.ownScope?_of_opens there opens, Option.getD_some]
      refine ⟨has.kind?, ?_⟩
      rw [ScopeTree.parent?, is]
      exact has.parent? is
  obtain ⟨phase, ⟨id, span, form⟩, scope, parents⟩ := v
  cases form with
  | forEach | catchClause => exact .inr (opened rfl)
  | _ => exact .inl rfl

theorem kind_of_localSort {form : Form Node} {what : String} (sort : localSort? form = some what) :
    form.kind ≠ .genericParam := by
  cases form with
  | generic => cases sort
  | variableDecl _ _ value => cases value <;> nofun
  | parameter | importDecl | importedName | forEach | catchClause => nofun
  | _ => cases sort

/-- The rule finds nothing at a declaration in a method, for all that is declared between it and
    the method, or that can be seen from outside the class, unless a function of the name stands
    among the members, or for a static method anything of the name. -/
theorem check_eq_nil_of_isMethod (builds : Builds program tree record)
    (visits : v ∈ walk program tree) {what : String} (sort : localSort? v.node.form = some what)
    {name : Token} (named : v.node.declaredName? = some name) {m side outer : ScopeId}
    (method : tree.IsMethod m side outer) (within : m ∈ tree.path (home tree v))
    (only : ∀ s ∈ tree.path (home tree v), m ∈ tree.path s →
      tree.OnlyBy s name.lexeme v.node.id)
    (unseen : ¬tree.Sees outer name.lexeme)
    (functions : (tree.table side).hasFunction name.lexeme = false)
    (statics : tree.kind? side = some .statics → (tree.table side).has name.lexeme = false) :
    check (v.site tree) = [] := by
  have inner : m ∈ tree.path v.scope ∧ tree.path v.scope ⊆ tree.path (home tree v) := by
    rcases home_eq_or builds visits with same | ⟨block, inside⟩
    · rw [same] at within ⊢
      exact ⟨within, List.Subset.refl _⟩
    · have path := builds.path_eq inside
      rw [path] at within ⊢
      have differs : m ≠ home tree v := by
        rintro rfl
        rw [method.function] at block
        cases block
      exact ⟨(List.mem_cons.1 within).resolve_left differs, List.subset_cons_self ..⟩
  obtain ⟨within, part⟩ := inner
  have outside {s : ScopeId} (there : s ∈ tree.lookupChain outer) :
      (tree.table s).has name.lexeme = false ∧ (tree.table s).hasFunction name.lexeme = false := by
    have none : ¬(tree.table s).Declares name.lexeme := fun declares =>
      unseen (sees_iff.2 ⟨s, there, declares⟩)
    simpa [SymbolTable.Declares] using none
  have noFunction : tree.hasFunction v.scope name.lexeme = false := by
    refine List.any_eq_false.2 fun s member => ?_
    rw [Bool.not_eq_true]
    rcases builds.mem_lookupChain_of_isMethod method within member with
      ⟨there, inside⟩ | rfl | there
    · exact (only s (part there) inside).function
    · exact functions
    · exact (outside there).2
  have free : isTaken tree v.scope v.node.id name.lexeme = false := by
    unfold isTaken declaration?
    cases found : (relevant tree (tree.path v.scope)).reverse.findSome? fun s =>
        (tree.table s).get? name.lexeme with
    | none => rfl
    | some entry =>
      obtain ⟨s, member, bound⟩ := List.exists_of_findSome?_eq_some found
      have has : (tree.table s).has name.lexeme = true := by rw [SymbolTable.has, bound]; rfl
      rcases builds.mem_relevant_of_isMethod method within (List.mem_reverse.1 member) with
        ⟨there, inside⟩ | ⟨rfl, static⟩ | there
      · rw [Option.any_some, (only s (part there) inside).bound entry bound]
        exact decide_eq_false (not_not_intro rfl)
      · rw [statics static] at has
        cases has
      · rw [(outside there).1] at has
        cases has
  rw [check_of_localSort sort, checkName, show (v.site tree).node = v.node from rfl, named]
  refine if_neg ?_
  rw [show (v.site tree).tree = tree from rfl, show (v.site tree).scope = v.scope from rfl, free,
    noFunction]
  exact Bool.false_ne_true

end Redeclaration

/-- A local declaration of a method is not reported for what its class has for members: not if no
    other declaration of its name stands in the scopes between it and the method and none can be
    seen from outside the class, unless the members on the side of the method have a function of the
    name, or the method is static and they have anything of the name. -/
theorem lint_ignores_members (tokens : List Token) (config : LintConfig) {tree : ScopeTree}
    (built : buildScopes (parse tokens).program = .ok tree) {v : Visit}
    (visits : v ∈ walk (parse tokens).program tree) {what : String}
    (sort : Redeclaration.localSort? v.node.form = some what) {name : Token}
    (named : v.node.declaredName? = some name) {m side outer : ScopeId}
    (method : tree.IsMethod m side outer)
    (within : m ∈ tree.path (Redeclaration.home tree v))
    (only : ∀ s ∈ tree.path (Redeclaration.home tree v), m ∈ tree.path s →
      tree.OnlyBy s name.lexeme v.node.id)
    (unseen : ¬tree.Sees outer name.lexeme)
    (functions : (tree.table side).hasFunction name.lexeme = false)
    (statics : tree.kind? side = some .statics → (tree.table side).has name.lexeme = false) :
    Redeclaration.check (v.site tree) = [] ∧
      ∀ source, tokens = (lex source).tokens → ∀ what,
        (Redeclaration.alreadyUsed what name).diagnostic "illegal-redeclaration" ∉
          lint config (parse tokens).program tree := by
  obtain ⟨record, builds⟩ := builds_of_ok (parse_isRegular tokens) built
  have nothing : Redeclaration.check (v.site tree) = [] :=
    Redeclaration.check_eq_nil_of_isMethod builds visits sort named method within only unseen
      functions statics
  refine ⟨nothing, ?_⟩
  rintro source rfl what' reported
  have other := Redeclaration.kind_of_localSort sort
  have found := Redeclaration.mem_check_of_mem_lint visits other named reported
  rw [nothing] at found
  cases found

/-- The variable of a method is not reported for the one of the instances. -/
theorem lint_ignores_members_instance :
    let program := (parse (lex "class A\n  var x\n  function f()\n    var x = 1\n").tokens).program
    ∃ tree v name m side outer, buildScopes program = .ok tree ∧ v ∈ walk program tree ∧
      Redeclaration.localSort? v.node.form = some "variable" ∧
      v.node.declaredName? = some name ∧ tree.IsMethod m side outer ∧
      (tree.table side).has name.lexeme = true ∧ Redeclaration.check (v.site tree) = [] ∧
      ∀ what, (Redeclaration.alreadyUsed what name).diagnostic "illegal-redeclaration" ∉
        lint .standard program tree := by
  intro program
  have test : (buildScopes program).toOption.any (fun tree => (walk program tree).any fun v =>
      v.node.declaredName?.any fun name =>
        decide (Redeclaration.localSort? v.node.form = some "variable" ∧ tree.IsMethod 3 1 0 ∧
          3 ∈ tree.path (Redeclaration.home tree v) ∧
          (∀ s ∈ tree.path (Redeclaration.home tree v), 3 ∈ tree.path s →
            tree.OnlyBy s name.lexeme v.node.id) ∧
          ¬tree.Sees 0 name.lexeme ∧ (tree.table 1).hasFunction name.lexeme = false ∧
          (tree.kind? 1 = some .statics → (tree.table 1).has name.lexeme = false) ∧
          (tree.table 1).has name.lexeme = true)) = true := by
    decide +kernel
  obtain ⟨tree, built, test⟩ := exists_of_any test
  obtain ⟨v, visits, test⟩ := List.any_eq_true.1 test
  obtain ⟨name, named, test⟩ := (Option.any_eq_true ..).1 test
  obtain ⟨sort, method, within, only, unseen, functions, statics, has⟩ := of_decide_eq_true test
  obtain ⟨nothing, silent⟩ := lint_ignores_members _ .standard built visits sort named method within
    only unseen functions statics
  exact ⟨tree, v, name, 3, 1, 0, built, visits, sort, named, method, has, nothing, silent _ rfl⟩

/-- It is for a method of the same name. -/
theorem not_lint_ignores_methods :
    let program :=
      (parse (lex "class A\n  function g()\n  function f()\n    var g = 1\n").tokens).program
    ∃ tree v name m side outer, buildScopes program = .ok tree ∧ v ∈ walk program tree ∧
      Redeclaration.localSort? v.node.form = some "variable" ∧
      v.node.declaredName? = some name ∧ tree.IsMethod m side outer ∧
      m ∈ tree.path (Redeclaration.home tree v) ∧
      (∀ s ∈ tree.path (Redeclaration.home tree v), m ∈ tree.path s →
        tree.OnlyBy s name.lexeme v.node.id) ∧
      ¬tree.Sees outer name.lexeme ∧
      (Redeclaration.alreadyUsed "variable" name).diagnostic "illegal-redeclaration" ∈
        lint .standard program tree := by
  intro program
  have test : (buildScopes program).toOption.any (fun tree => (walk program tree).any fun v =>
      v.node.declaredName?.any fun name =>
        decide (Redeclaration.localSort? v.node.form = some "variable" ∧ tree.IsMethod 4 1 0 ∧
          4 ∈ tree.path (Redeclaration.home tree v) ∧
          (∀ s ∈ tree.path (Redeclaration.home tree v), 4 ∈ tree.path s →
            tree.OnlyBy s name.lexeme v.node.id) ∧
          ¬tree.Sees 0 name.lexeme ∧
          (Redeclaration.alreadyUsed "variable" name).diagnostic "illegal-redeclaration" ∈
            lint .standard program tree)) = true := by
    decide +kernel
  obtain ⟨tree, built, test⟩ := exists_of_any test
  obtain ⟨v, visits, test⟩ := List.any_eq_true.1 test
  obtain ⟨name, named, test⟩ := (Option.any_eq_true ..).1 test
  obtain ⟨sort, method, within, only, unseen, reported⟩ := of_decide_eq_true test
  exact ⟨tree, v, name, 4, 1, 0, built, visits, sort, named, method, within, only, unseen, reported⟩

end TekLang
