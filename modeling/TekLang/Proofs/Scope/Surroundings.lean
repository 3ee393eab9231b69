import TekLang.Proofs.Grammar.Grammatical
import TekLang.Proofs.Scope.Contents

/-!
# The regions around a node

In which regions a node stands, said of the tree alone: for each region what is declared in it, the
innermost region first. The scopes that names are looked up in from the scope of the node are those
of these regions, one by one.
-/

namespace TekLang

/-- A node of a program with what is declared in the regions around it, innermost first. The region
    of the members of instances is not around the static members of a class. -/
inductive Stands (program : Node) : Node → List (List Declaration) → Prop
  | program : Stands program program [program.declarationsIn .around]
  | around {n m : Node} {regions} (stands : Stands program n regions)
    (place : (.around, m) ∈ n.placed) : Stands program m regions
  | inner {n m : Node} {region regions} (stands : Stands program n regions)
    (place : (region, m) ∈ n.placed) (inner : region ≠ .around) :
    Stands program m (n.declarationsIn region :: regions)

namespace Stands

variable {program n m : Node} {regions : List (List Declaration)}

theorem mem_descendants (stands : Stands program n regions) : n ∈ program.descendants := by
  induction stands with
  | program => exact program.mem_descendants_self
  | around _ place ih | inner _ place _ ih =>
    have child := Node.mem_children_of_mem_placed place
    have below := Node.mem_descendants_of_child child (Node.mem_descendants_self _)
    exact (Node.descendants_sublist ih).subset below

theorem exists_of_mem (stands : Stands program n regions) (below : m ∈ n.descendants) :
    ∃ regions', Stands program m regions' := by
  induction n using Node.induction_on_children generalizing regions with
  | step n ih =>
    rw [Node.descendants_eq] at below
    rcases List.mem_cons.1 below with rfl | below
    · exact ⟨regions, stands⟩
    · obtain ⟨child, there, below⟩ := List.mem_flatMap.1 below
      rw [← n.map_snd_placed] at there
      obtain ⟨⟨region, _⟩, place, rfl⟩ := List.mem_map.1 there
      have child := Node.mem_children_of_mem_placed place
      by_cases inner : region = .around
      · subst inner
        exact ih _ child (stands.around place) below
      · exact ih _ child (stands.inner place inner) below

/-- Every node of a program stands somewhere. -/
theorem exists_regions (below : n ∈ program.descendants) : ∃ regions, Stands program n regions :=
  exists_of_mem .program below

/-- What a node and those inside it declare around it is declared in the innermost region. -/
theorem declares (stands : Stands program n regions) :
    ∃ own outer, regions = own :: outer ∧ n.declarationsIn .around ⊆ own := by
  induction stands with
  | program => exact ⟨_, [], rfl, List.Subset.refl _⟩
  | @around n m regions _ place ih =>
    obtain ⟨own, outer, same, part⟩ := ih
    refine ⟨own, outer, same, List.Subset.trans ?_ part⟩
    rw [n.declarationsIn_eq]
    intro d there
    exact List.mem_append_right _ (List.mem_flatMap.2 ⟨m, Node.mem_standing.2 place, there⟩)
  | @inner n m region regions _ place _ _ =>
    refine ⟨_, regions, rfl, ?_⟩
    rw [n.declarationsIn_eq]
    intro d there
    exact List.mem_append_right _ (List.mem_flatMap.2 ⟨m, Node.mem_standing.2 place, there⟩)

end Stands

/-- A part of a construct stands in the field for such parts. -/
theorem field_eq_of_home {tokens : List Token} {n m : Node}
    (below : n ∈ (parse tokens).program.descendants) {field home : Field}
    (there : (field, m) ∈ n.form.fields) (part : m.kind.home? = some home) : field = home := by
  rcases eq_or_conforms_of_mem_descendants below with rfl | ⟨phrase, conforms⟩
  · obtain ⟨id, span, body, tree, conforms⟩ := parse_conforms tokens
    rw [tree, Form.fields, Form.mem_inField] at there
    have statement := (conforms m there.2).isStatement
    rw [NodeKind.home?_of_isStatement statement] at part
    cases part
  · exact Field.eq_of_admits (conforms.admits there) part

/-- A detail that declares a name is declared in the region where it stands, by the node that it is
    a detail of. -/
theorem mem_declarations_of_isDetail {tokens : List Token} {n m : Node}
    (below : n ∈ (parse tokens).program.descendants) {region : Region}
    (place : (region, m) ∈ n.placed) (detail : m.form.isDetail = true) {name : Token}
    (named : m.declaredName? = some name) : ⟨name, m, .plain⟩ ∈ n.declarations region := by
  have part := Node.mem_children_of_mem_placed place
  obtain ⟨field, there⟩ := Node.mem_children_iff_field.1 part
  have own {ns : List Node} (member : m ∈ ns) (made : m.parameter? = some ⟨name, m, .plain⟩) :
      ⟨name, m, .plain⟩ ∈ ns.filterMap Node.parameter? := List.mem_filterMap.2 ⟨m, member, made⟩
  cases is : m.form with
  | parameter spelt type =>
    obtain rfl := field_eq_of_home below there (by rw [Node.kind, is]; rfl)
    have made : m.parameter? = some ⟨name, m, .plain⟩ := by
      rw [Node.declaredName?, is] at named
      cases named
      rw [Node.parameter?, is]
    obtain ⟨id, span, form⟩ := n
    cases form with
    | functionDecl _ generics params =>
      obtain ⟨rfl, -⟩ := mem_inRegion.1 place
      simp only [Form.fields, List.mem_append, Form.mem_inField] at there
      have member : m ∈ params := by grind
      exact List.mem_append_right _ (own member made)
    | constructor params =>
      obtain ⟨rfl, -⟩ := mem_inRegion.1 place
      simp only [Form.fields, List.mem_append, Form.mem_inField] at there
      have member : m ∈ params := by grind
      exact own member made
    | _ => simp [Form.fields, Form.mem_inField] at there
  | generic spelt bound =>
    obtain rfl := field_eq_of_home below there (by rw [Node.kind, is]; rfl)
    have made : m.parameter? = some ⟨name, m, .plain⟩ := by
      rw [Node.declaredName?, is] at named
      cases named
      rw [Node.parameter?, is]
    obtain ⟨id, span, form⟩ := n
    cases form with
    | functionDecl _ generics =>
      obtain ⟨rfl, -⟩ := mem_inRegion.1 place
      simp only [Form.fields, List.mem_append, Form.mem_inField] at there
      have member : m ∈ generics := by grind
      exact List.mem_append_left _ (own member made)
    | classDecl _ generics =>
      have region : region = .own := by
        simp [Node.placed, mem_inRegion, mem_inMemberRegions, Region.ofMember, is] at place
        grind
      subst region
      simp only [Form.fields, List.mem_append, Form.mem_inField] at there
      have member : m ∈ generics := by grind
      exact own member made
    | _ => simp [Form.fields, Form.mem_inField] at there
  | importedName spelt rename =>
    obtain rfl := field_eq_of_home below there (by rw [Node.kind, is]; rfl)
    have sound : n.form.IsSound := by
      rcases eq_or_conforms_of_mem_descendants below with rfl | ⟨phrase, conforms⟩
      · obtain ⟨id, span, body, tree, -⟩ := parse_conforms tokens
        rw [tree]
        trivial
      · exact conforms.isSound
    obtain ⟨id, span, form⟩ := n
    cases form with
    | importDecl =>
      obtain ⟨rfl, -⟩ := mem_inRegion.1 place
      have member := (Form.mem_inField.1 there).2
      rcases sound.2 with rfl | rfl
      · have some := List.ne_nil_of_mem member
        simp only [Node.declarations, List.isEmpty_iff, some, if_false]
        exact List.mem_filterMap.2 ⟨m, member, by rw [Node.listed?, named]; rfl⟩
      · cases member
    | _ => simp [Form.fields, Form.mem_inField] at there
  | typeRef =>
    rw [Node.declaredName?, is] at named
    cases named
  | _ =>
    rw [is] at detail
    cases detail

/-- Whether a scope is that of a region with the given declarations. -/
def IsScopeOf (program : Node) (tree : ScopeTree) (s : ScopeId) (ds : List Declaration) : Prop :=
  ∃ n ∈ program.descendants, ∃ region, (region = .around → n = program) ∧
    ds = n.declarationsIn region ∧ (tree.table s).Holds s n region

section Lookup

variable {source : String} {tree : ScopeTree} {record : List (Node × Regions ScopeId)}

/-- The scopes that names are looked up in from a node are those of the regions around it. -/
theorem forall₂_of_stands
    (builds : Builds (parse (lex source).tokens).program tree record) {n : Node}
    {regions : List (List Declaration)}
    (stands : Stands (parse (lex source).tokens).program n regions) {v : Visit}
    (visits : v ∈ walk (parse (lex source).tokens).program tree) (node : v.node = n) :
    List.Forall₂ (IsScopeOf (parse (lex source).tokens).program tree) (tree.lookupChain v.scope)
      regions := by
  have entered {v : Visit} (visits : v ∈ walk (parse (lex source).tokens).program tree) {m : Node}
      (same : v.node = m) {s : ScopeId} {above : List Node}
      (there : ⟨.enter, m, s, above⟩ ∈ walk (parse (lex source).tokens).program tree) :
      v.scope = s := by
    have one := Walk.eq_of_entered builds.regular.distinct (Walk.entered_of_mem tree v visits) there
      rfl rfl (congrArg Node.id same)
    exact congrArg (·.scope) one
  induction stands generalizing v with
  | program =>
    have first := Walk.node_eq tree [] ScopeTree.root (parse (lex source).tokens).program
    obtain ⟨scope, is, isOf⟩ := builds.root_isOf
    have holds := isOf.holds
    rw [Builds.table_of_get? is] at holds
    rw [entered visits node (first ▸ List.mem_cons_self), builds.lookupChain_root]
    exact .cons ⟨_, Node.mem_descendants_self _, .around, fun _ => rfl, rfl, holds⟩ .nil
  | @around n m regions stands place ih =>
    obtain ⟨s, above, visits'⟩ := Walk.exists_entered tree stands.mem_descendants
    have scope : v.scope = s := entered visits node (Walk.entered_of_placed visits' place)
    rw [scope]
    exact ih visits' rfl
  | @inner n m region regions stands place inner ih =>
    obtain ⟨s, above, visits'⟩ := Walk.exists_entered tree stands.mem_descendants
    have inside := Walk.entered_of_placed visits' place
    have below := stands.mem_descendants
    have has := has_of_placed place
    rcases builds.isDetail_or_mem_record below with detail | ⟨r, there⟩
    · exact absurd (around_of_placed_of_isDetail detail place) inner
    have holds := holds_of_bindingsIn source below region (r.get region)
    rw [← builds.table_get there has inner] at holds
    have scope : s = r.around := builds.scope_eq visits' there
    rw [entered visits node inside, scope, builds.regions_get there place,
      builds.lookupChain_get there has inner, ← scope]
    exact .cons ⟨_, below, region, fun around => absurd around inner, rfl, holds⟩ (ih visits' rfl)

end Lookup

end TekLang
