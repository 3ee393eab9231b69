import TekLang.Proofs.Scope.Contents
import TekLang.Proofs.Scope.Paths

/-!
# The registry of functions

A function is bound under its signature and registered under its name, each in a list that knows
nothing of the other. In the scopes of a text the two agree: what is registered under a name are the
functions of that name in the region of the scope, every one of them is bound to what it is
registered with, and no other signatures are bound than theirs and those of constructors. What can
be called by a name in a scope is what is registered along the scopes in which names are looked up.
-/

namespace TekLang

namespace Node

/-- The functions that are declared directly in a region of a node, in the order of the text, as
    they are registered in a scope. -/
def functionsIn (n : Node) (region : Region) (s : ScopeId) : List Overload :=
  (n.declarationsIn region).filterMap (·.overload? s)

/-- Those of one name. -/
def overloadsIn (n : Node) (region : Region) (s : ScopeId) (name : String) : List Overload :=
  ((n.declarationsIn region).filter (·.name.lexeme = name)).filterMap (·.overload? s)

theorem mem_functionsIn_of_mem_overloadsIn {n : Node} {region : Region} {s : ScopeId}
    {name : String} {f : Overload} (there : f ∈ n.overloadsIn region s name) :
    f ∈ n.functionsIn region s :=
  (List.filter_sublist.filterMap _).subset there

end Node

/-- A table has registered the functions of a region of a node, and the signatures that are bound in
    it are those of these functions, with the same entries, and those of constructors. -/
structure SymbolTable.KeepsStep (t : SymbolTable) (s : ScopeId) (n : Node) (region : Region) :
    Prop where
  ordered : (n.declarationsIn region).Pairwise (·.name.span.start < ·.name.span.start)
  registered : ∀ name, t.overloads name = n.overloadsIn region s name
  distinct : (n.functionsIn region s).Pairwise (·.signature ≠ ·.signature)
  bound : ∀ name, ∀ f ∈ t.overloads name, t.get? f.signature = some f.entry
  signatures : ∀ text entry, t.get? text = some entry → ¬ IsPlainName text →
    (∃ name, ⟨text, entry⟩ ∈ t.overloads name) ∨
      ∃ c ∈ n.constructorsIn region, c.text = text ∧ ⟨c.node.id, s⟩ = entry

/-- What is bound under a text is the node of the first that has it, with the scope. -/
theorem SymbolTable.Holds.of_get? {t : SymbolTable} {s : ScopeId} {n : Node} {region : Region}
    (holds : t.Holds s n region) {text : String} {entry : SymbolEntry}
    (found : t.get? text = some entry) :
    ∃ b ∈ n.boundIn region, b.text = text ∧ entry = ⟨b.node.id, s⟩ ∧
      ∀ other ∈ n.boundIn region, other.text = text → other = b ∨ b.place < other.place := by
  obtain ⟨home, b, there, same, node, first⟩ := holds.first text entry found
  refine ⟨b, there, same, ?_, first⟩
  rw [node, ← home]

namespace Declaration

variable {d : Declaration}

/-- The functions among declarations are those that are not bound under a name. -/
theorem overload?_eq_some_iff (proper : d.IsProper) {s : ScopeId} {f : Overload} :
    d.overload? s = some f ↔ ¬ IsPlainName d.text ∧ f = ⟨d.text, ⟨d.node.id, s⟩⟩ := by
  obtain ⟨name, node, sort⟩ := d
  cases sort with
  | plain | ofClass => exact iff_of_false nofun fun signature => signature.1 proper.plain
  | ofFunction generics params =>
    constructor
    · rintro ⟨⟩
      exact ⟨fun plain => not_isPlainName_text _ _ _ plain, rfl⟩
    · rintro ⟨-, rfl⟩
      rfl

theorem refusal?_ne_none (proper : d.IsProper) (signature : ¬ IsPlainName d.text) :
    d.refusal? ≠ none := by
  obtain ⟨name, node, sort⟩ := d
  cases sort with
  | plain => exact absurd proper.plain signature
  | ofClass | ofFunction => exact Option.some_ne_none _

end Declaration

section Regions

variable {source : String} {tree : ScopeTree} {n : Node} {region : Region} {t : SymbolTable}
  {s : ScopeId} (built : buildScopes (parse (lex source).tokens).program = .ok tree)
  (below : n ∈ (parse (lex source).tokens).program.descendants)
  (only : region = .around → n = (parse (lex source).tokens).program)

include built below only

/-- Where the scopes are built, no function has the signature of one in front of it. -/
theorem not_before_of_text_eq {first second : Declaration}
    (there : first ∈ n.declarationsIn region) (there' : second ∈ n.declarationsIn region)
    (signature : ¬ IsPlainName second.text) (same : first.text = second.text) :
    ¬ first.name.span.start < second.name.span.start := by
  intro behind
  have proper : ∀ d ∈ n.declarationsIn region, d.IsProper :=
    isProper_of_mem_declarationsIn source below
  have refuses := Declaration.refusal?_ne_none (proper second there') signature
  rw [← Declaration.key_binding, ← Declaration.key_binding,
    key_eq_iff_excludes (proper first there) (proper second there') refuses] at same
  exact not_conflict_of_ok built first second
    ⟨⟨n, below, region, only, there, there'⟩, behind, same⟩

theorem functionsIn_distinct : (n.functionsIn region s).Pairwise (·.signature ≠ ·.signature) := by
  have proper : ∀ d ∈ n.declarationsIn region, d.IsProper :=
    isProper_of_mem_declarationsIn source below
  rw [Node.functionsIn, List.pairwise_filterMap]
  refine (declarationsIn_inOrder source below region).imp_of_mem ?_
  intro d e there there' behind f made g made' same
  obtain ⟨-, rfl⟩ := (Declaration.overload?_eq_some_iff (proper d there)).1 made
  obtain ⟨signature, rfl⟩ := (Declaration.overload?_eq_some_iff (proper e there')).1 made'
  exact not_before_of_text_eq built below only there there' signature same behind

/-- A function is bound to what it is registered with: it is the first that has its signature. -/
theorem get?_of_mem_functionsIn (holds : t.Holds s n region) {f : Overload}
    (registered : f ∈ n.functionsIn region s) : t.get? f.signature = some f.entry := by
  have proper : ∀ d ∈ n.declarationsIn region, d.IsProper :=
    isProper_of_mem_declarationsIn source below
  obtain ⟨d, there, made⟩ := List.mem_filterMap.1 registered
  obtain ⟨signature, rfl⟩ := (Declaration.overload?_eq_some_iff (proper d there)).1 made
  have declared : d.bound ∈ (n.declarationsIn region).map Declaration.bound :=
    List.mem_map_of_mem there
  have among : d.bound ∈ n.boundIn region := List.mem_append_left _ declared
  have has := (holds.names d.text).2 ⟨d.bound, among, rfl⟩
  obtain ⟨entry, found⟩ := Option.isSome_iff_exists.1 has
  obtain ⟨b, member, text, rfl, first⟩ := holds.of_get? found
  have same : d.bound = b := by
    rcases first d.bound among rfl with same | behind
    · exact same
    rcases List.mem_append.1 member with member | member
    · obtain ⟨e, there', rfl⟩ := List.mem_map.1 member
      exact absurd behind (not_before_of_text_eq built below only there' there signature text)
    · have differs := text_ne_of_mem_constructorsIn source below region declared member
      exact absurd text.symm differs
  rw [← same] at found
  exact found

/-- The table of a region keeps the registry and the signatures in step. -/
theorem keepsStep_of_holds (holds : t.Holds s n region) : t.KeepsStep s n region := by
  have proper : ∀ d ∈ n.declarationsIn region, d.IsProper :=
    isProper_of_mem_declarationsIn source below
  refine ⟨declarationsIn_inOrder source below region, holds.functions,
    functionsIn_distinct built below only, ?_, ?_⟩
  · intro name f there
    rw [holds.functions] at there
    exact get?_of_mem_functionsIn built below only holds
      (Node.mem_functionsIn_of_mem_overloadsIn there)
  · intro text entry found signature
    obtain ⟨b, among, rfl, rfl, -⟩ := holds.of_get? found
    rcases List.mem_append.1 among with declared | constructs
    · obtain ⟨d, there, rfl⟩ := List.mem_map.1 declared
      have function : d.overload? s = some ⟨d.text, ⟨d.node.id, s⟩⟩ :=
        (Declaration.overload?_eq_some_iff (proper d there)).2 ⟨signature, rfl⟩
      refine .inl ⟨d.name.lexeme, ?_⟩
      rw [holds.functions]
      exact List.mem_filterMap.2 ⟨d, List.mem_filter.2 ⟨there, by simp⟩, function⟩
    · exact .inr ⟨b, constructs, rfl, rfl⟩

end Regions

namespace ScopeTree

/-- A function of a name can be called exactly if there is one to be called. -/
theorem hasFunction_iff (tree : ScopeTree) (s : ScopeId) (name : String) :
    tree.hasFunction s name = true ↔ tree.overloads s name ≠ [] := by
  simp only [hasFunction, overloads, List.any_eq_true, SymbolTable.hasFunction_iff, ne_eq,
    List.flatMap_eq_nil_iff, not_forall, exists_prop]

end ScopeTree

theorem Opens.eq_program {program n : Node} {region : Region} {kind : ScopeKind}
    (opens : Opens program n region kind) (around : region = .around) : n = program := by
  cases opens with
  | program => rfl
  | own | statics => cases around

/-- Names are looked up only in scopes that there are. -/
theorem Builds.exists_of_mem_lookupChain {program : Node} {tree : ScopeTree}
    {record : List (Node × Regions ScopeId)} (builds : Builds program tree record) {s s' : ScopeId}
    (member : s' ∈ tree.lookupChain s) : ∃ scope, tree.get? s' = some scope := by
  have member := (ScopeTree.skipInstances_sublist tree _).subset member
  have inner := builds.le_of_mem_path member
  cases is : tree.get? s with
  | none =>
    rw [ScopeTree.path, is] at member
    cases member
  | some scope => exact ScopeTree.exists_of_lt (Nat.lt_of_le_of_lt inner (ScopeTree.lt_of_get? is))

/-- In every scope of a text the registry keeps step with the symbols and with what is declared
    there, and what can be called by a name is what is registered where the name is looked up. -/
theorem registry_keeps_step (source : String) {tree : ScopeTree}
    (built : buildScopes (parse (lex source).tokens).program = .ok tree) :
    ∃ home : ScopeId → Node × Region,
      (∀ s scope, tree.get? s = some scope →
        (home s).1 ∈ (parse (lex source).tokens).program.descendants ∧
          scope.IsOf s (parse (lex source).tokens).program (home s).1 (home s).2 ∧
          scope.table.KeepsStep s (home s).1 (home s).2) ∧
      ∀ s name,
        (tree.overloads s name = (tree.lookupChain s).flatMap fun s' =>
          (home s').1.overloadsIn (home s').2 s' name) ∧
        (tree.hasFunction s name = true ↔ tree.overloads s name ≠ []) := by
  obtain ⟨record, builds⟩ := builds_of_ok (parse_isRegular (lex source).tokens) built
  have homes : ∀ s, ∃ home : Node × Region, ∀ scope, tree.get? s = some scope →
      home.1 ∈ (parse (lex source).tokens).program.descendants ∧
        scope.IsOf s (parse (lex source).tokens).program home.1 home.2 := by
    intro s
    cases is : tree.get? s with
    | none => exact ⟨((parse (lex source).tokens).program, .around), nofun⟩
    | some scope =>
      obtain ⟨n, below, region, isOf⟩ := builds.exists_isOf is
      refine ⟨(n, region), ?_⟩
      rintro _ ⟨⟩
      exact ⟨below, isOf⟩
  choose home stands using homes
  have step {s : ScopeId} {scope : Scope} (is : tree.get? s = some scope) :
      scope.table.KeepsStep s (home s).1 (home s).2 := by
    obtain ⟨below, isOf⟩ := stands s scope is
    exact keepsStep_of_holds built below isOf.opens.eq_program isOf.holds
  refine ⟨home, ?_, ?_⟩
  · intro s scope is
    obtain ⟨below, isOf⟩ := stands s scope is
    exact ⟨below, isOf, step is⟩
  · intro s name
    refine ⟨?_, tree.hasFunction_iff s name⟩
    refine List.flatMap_congr fun s' member => ?_
    obtain ⟨scope, is⟩ := builds.exists_of_mem_lookupChain member
    rw [← Builds.table_of_get? is]
    exact (step is).registered name

/-- Functions of one name on both sides of a class and inside the static one: from there the
    function of the instances is passed over. -/
theorem registry_keeps_step_nested :
    let program := (parse (lex
      "class A\n  new()\n  function f()\n  static function f()\n    function f(a: A)\n"
      ).tokens).program
    ∃ tree, buildScopes program = .ok tree ∧
      (tree.scopes.toList.map fun scope => (scope.table.overloads "f").map (·.signature)) =
        [[], ["f()"], ["f()"], [], ["f(A)"], [], []] ∧
      (tree.overloads 5 "f").map (·.entry.scope) = [4, 2] ∧
      ∀ s scope, tree.get? s = some scope → ∃ n region,
        scope.IsOf s program n region ∧ scope.table.KeepsStep s n region := by
  intro program
  have test : (buildScopes program).toOption.any (fun tree => decide (
      (tree.scopes.toList.map fun scope => (scope.table.overloads "f").map (·.signature)) =
        [[], ["f()"], ["f()"], [], ["f(A)"], [], []] ∧
      (tree.overloads 5 "f").map (·.entry.scope) = [4, 2])) = true := by
    decide +kernel
  obtain ⟨tree, built, test⟩ := exists_of_any test
  obtain ⟨registered, called⟩ := of_decide_eq_true test
  obtain ⟨home, step, -⟩ := registry_keeps_step _ built
  refine ⟨tree, built, registered, called, ?_⟩
  intro s scope is
  obtain ⟨-, isOf, keeps⟩ := step s scope is
  exact ⟨(home s).1, (home s).2, isOf, keeps⟩

end TekLang
