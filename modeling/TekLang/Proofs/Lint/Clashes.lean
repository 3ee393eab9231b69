import TekLang.Proofs.Lint.Reports
import TekLang.Proofs.Lint.Shadowing
import TekLang.Proofs.Scope.Surroundings

/-!
# Declarations of names in use

What the rule on names in use reports of a program without classes, said of the tree alone. A name
that is no function's is in use if it is declared earlier in the same region, anywhere in a region
around that, or for a function that can be seen. That of a function is in use if anything else that
can be seen has it, or a function of the same signature further out.
-/

namespace TekLang

/-- The signature of a function that is declared. -/
def Declaration.signature? (d : Declaration) : Option String :=
  match d.sort with
  | .plain | .ofClass => none
  | .ofFunction generics params => some (Signature.ofFunction d.name generics params)

namespace Redeclaration

/-- Whether anything but a function is declared under the name. -/
def DeclaresName (ds : List Declaration) (name : String) : Prop :=
  ∃ d ∈ ds, d.signature? = none ∧ d.name.lexeme = name

/-- Whether anything but a function is declared under the name further up in the text. -/
def DeclaresBefore (ds : List Declaration) (name : Token) : Prop :=
  ∃ d ∈ ds, d.signature? = none ∧ d.name.lexeme = name.lexeme ∧
    d.name.span.start < name.span.start

/-- Whether a function is declared under the name. -/
def DeclaresFunction (ds : List Declaration) (name : String) : Prop :=
  ∃ d ∈ ds, d.signature? ≠ none ∧ d.name.lexeme = name

/-- Whether a function of the signature is declared. -/
def DeclaresSignature (ds : List Declaration) (signature : String) : Prop :=
  ∃ d ∈ ds, d.signature? = some signature

instance (ds : List Declaration) (name : String) : Decidable (DeclaresName ds name) :=
  inferInstanceAs (Decidable (∃ d ∈ ds, _))

instance (ds : List Declaration) (name : Token) : Decidable (DeclaresBefore ds name) :=
  inferInstanceAs (Decidable (∃ d ∈ ds, _))

instance (ds : List Declaration) (name : String) : Decidable (DeclaresFunction ds name) :=
  inferInstanceAs (Decidable (∃ d ∈ ds, _))

instance (ds : List Declaration) (signature : String) :
    Decidable (DeclaresSignature ds signature) :=
  inferInstanceAs (Decidable (∃ d ∈ ds, _))

/-- The regions that the declaration of a node is made in: those around it, and in front of them the
    one that a loop or a handler opens for its variable. -/
def homeRegions (n : Node) (regions : List (List Declaration)) : List (List Declaration) :=
  match n.form with
  | .forEach .. | .catchClause .. => n.declarationsIn .own :: regions
  | _ => regions

/-- Whether a name that is no function's is in use where a node in the given regions declares it. -/
def IsNameUsed (n : Node) (regions : List (List Declaration)) (name : Token) : Prop :=
  DeclaresBefore ((homeRegions n regions).headD []) name ∨
    (∃ ds ∈ (homeRegions n regions).tail, DeclaresName ds name.lexeme) ∨
    ∃ ds ∈ regions, DeclaresFunction ds name.lexeme

/-- Whether the name or the signature of a function is in use in the given regions. -/
def IsFunctionUsed (regions : List (List Declaration)) (name signature : String) : Prop :=
  (∃ ds ∈ regions, DeclaresName ds name) ∨ ∃ ds ∈ regions.tail, DeclaresSignature ds signature

instance (n : Node) (regions : List (List Declaration)) (name : Token) :
    Decidable (IsNameUsed n regions name) := inferInstanceAs (Decidable (_ ∨ _))

instance (regions : List (List Declaration)) (name signature : String) :
    Decidable (IsFunctionUsed regions name signature) := inferInstanceAs (Decidable (_ ∨ _))

/-- What reports call a declaration that is none of a function. -/
def nameSort? (form : Form Node) : Option String :=
  match form with
  | .generic .. => some "generic"
  | form => localSort? form

/-- What reports call a declaration, other than that of a class. -/
def sort? (form : Form Node) : Option String :=
  match form with
  | .functionDecl .. => some "function"
  | form => nameSort? form

/-- The signature of the function that a node declares. -/
def signature? (n : Node) : Option String :=
  match n.form with
  | .functionDecl name generics params .. => some (Signature.ofFunction name generics params)
  | _ => none

/-- Whether a name is in use where a node in the given regions declares it. -/
def IsUsed (n : Node) (regions : List (List Declaration)) (name : Token) : Prop :=
  match signature? n with
  | some signature => IsFunctionUsed regions name.lexeme signature
  | none => IsNameUsed n regions name

instance (n : Node) (regions : List (List Declaration)) (name : Token) :
    Decidable (IsUsed n regions name) :=
  match function : signature? n with
  | some signature =>
    decidable_of_iff (IsFunctionUsed regions name.lexeme signature) (by rw [IsUsed, function])
  | none => decidable_of_iff (IsNameUsed n regions name) (by rw [IsUsed, function])

end Redeclaration

/-! What the table of a region tells. -/

namespace Declaration

theorem text_eq_iff_of_plain {d : Declaration} {name : String} (plain : IsPlainName name) :
    d.text = name ↔ d.signature? = none ∧ d.name.lexeme = name := by
  obtain ⟨own, node, sort⟩ := d
  cases sort with
  | plain | ofClass => simp [text, signature?]
  | ofFunction generics params =>
    refine iff_of_false ?_ nofun
    rintro (rfl : Signature.ofFunction own generics params = name)
    exact not_isPlainName_text _ _ _ plain

theorem text_eq_iff_of_signature {d : Declaration} (plain : IsPlainName d.name.lexeme)
    {signature : String} (other : ¬ IsPlainName signature) :
    d.text = signature ↔ d.signature? = some signature := by
  obtain ⟨own, node, sort⟩ := d
  cases sort with
  | plain | ofClass =>
    refine iff_of_false ?_ nofun
    rintro (rfl : own.lexeme = signature)
    exact other plain
  | ofFunction generics params => exact Option.some_inj.symm

theorem excludes_of_signature? {first second : Declaration} {signature : String}
    (function : first.signature? = some signature)
    (function' : second.signature? = some signature) : first.Excludes second := by
  obtain ⟨name, node, sort⟩ := first
  obtain ⟨name', node', sort'⟩ := second
  cases sort with
  | plain | ofClass => cases function
  | ofFunction generics params =>
    cases sort' with
    | plain | ofClass => cases function'
    | ofFunction generics' params' =>
      exact (Option.some.inj function).trans (Option.some.inj function').symm

theorem overload?_eq_none_iff (d : Declaration) (s : ScopeId) :
    d.overload? s = none ↔ d.signature? = none := by
  obtain ⟨own, node, sort⟩ := d
  cases sort <;> simp [overload?, signature?]

end Declaration

namespace Redeclaration

section Tables

variable {source : String} {tree : ScopeTree} {s : ScopeId} {ds : List Declaration}

theorem constructorsIn_of_ne {n : Node} (other : n.kind ≠ .classDecl) (region : Region) :
    n.constructorsIn region = [] := by
  obtain ⟨id, span, form⟩ := n
  cases form with
  | classDecl => exact absurd rfl other
  | _ => cases region <;> rfl

/-- Without classes, the table of a region holds what is declared there and nothing else. -/
structure Records (t : SymbolTable) (ds : List Declaration) : Prop where
  proper : ∀ d ∈ ds, d.IsProper
  names : ∀ text, t.has text = true ↔ ∃ d ∈ ds, d.text = text
  first : ∀ text entry, t.get? text = some entry → ∃ d ∈ ds, d.text = text ∧
    d.node.id = entry.node ∧ ∀ other ∈ ds, other.text = text →
      other.node = d.node ∨ d.name.span.start < other.name.span.start
  functions : ∀ name, t.hasFunction name = true ↔ DeclaresFunction ds name

theorem records_of_isScopeOf (free : ClassFree (parse (lex source).tokens).program)
    (isOf : IsScopeOf (parse (lex source).tokens).program tree s ds) :
    Records (tree.table s) ds := by
  obtain ⟨n, below, region, -, rfl, holds⟩ := isOf
  have bound : n.boundIn region = (n.declarationsIn region).map Declaration.bound := by
    rw [Node.boundIn, constructorsIn_of_ne (free n below), List.append_nil]
  constructor
  · exact isProper_of_mem_declarationsIn source below
  · intro text
    rw [holds.names, bound]
    simp only [List.mem_map, exists_exists_and_eq_and, Declaration.bound]
  · intro text entry found
    obtain ⟨-, b, there, named, node, first⟩ := holds.first text entry found
    rw [bound] at there first
    obtain ⟨d, declared, rfl⟩ := List.mem_map.1 there
    refine ⟨d, declared, named, node, ?_⟩
    intro other there' named'
    refine (first other.bound (List.mem_map_of_mem there') named').imp_left ?_
    exact congrArg Bound.node
  · intro name
    rw [SymbolTable.hasFunction_iff, holds.functions, ne_eq, List.filterMap_eq_nil_iff]
    simp only [Declaration.overload?_eq_none_iff, List.mem_filter, decide_eq_true_eq]
    constructor
    · intro some
      by_contra none
      refine some fun d there => ?_
      by_contra function
      exact none ⟨d, there.1, function, there.2⟩
    · rintro ⟨d, there, function, same⟩ none
      exact function (none d ⟨there, same⟩)

namespace Records

variable {t : SymbolTable} {d : Declaration} {entry : SymbolEntry}

theorem has_iff (records : Records t ds) {name : String} (plain : IsPlainName name) :
    t.has name = true ↔ DeclaresName ds name := by
  simp only [records.names, Declaration.text_eq_iff_of_plain plain]
  rfl

theorem has_signature_iff (records : Records t ds) {signature : String}
    (other : ¬ IsPlainName signature) :
    t.has signature = true ↔ DeclaresSignature ds signature := by
  rw [records.names]
  refine exists_congr fun d => and_congr_right fun there => ?_
  exact Declaration.text_eq_iff_of_signature (records.proper d there).plain other

/-- A name is bound to another node than that of a declaration exactly if it is declared earlier. -/
theorem bound_iff_before (records : Records t ds) (there : d ∈ ds) (named : d.signature? = none)
    (own : ∀ e ∈ ds, e.node.id = d.node.id → e.name = d.name) :
    (∃ entry, t.get? d.name.lexeme = some entry ∧ entry.node ≠ d.node.id) ↔
      DeclaresBefore ds d.name := by
  have plain := (records.proper d there).plain
  constructor
  · rintro ⟨entry, bound, other⟩
    obtain ⟨e, there', text, node, first⟩ := records.first _ entry bound
    obtain ⟨name, same⟩ := (Declaration.text_eq_iff_of_plain plain).1 text
    rcases first d there ((Declaration.text_eq_iff_of_plain plain).2 ⟨named, rfl⟩) with
      equal | before
    · exact absurd (node.symm.trans (congrArg Node.id equal.symm)) other
    · exact ⟨e, there', name, same, before⟩
  · rintro ⟨e, there', name, same, before⟩
    have text := (Declaration.text_eq_iff_of_plain plain).2 ⟨name, same⟩
    have has := (records.names d.name.lexeme).2 ⟨e, there', text⟩
    obtain ⟨entry, bound⟩ := Option.isSome_iff_exists.1 has
    refine ⟨entry, bound, fun itself => ?_⟩
    obtain ⟨f, there'', -, node, first⟩ := records.first _ entry bound
    have spelt := own f there'' (node.trans itself)
    rcases first e there' text with equal | behind
    · rw [own e there' ((congrArg Node.id equal).trans (node.trans itself))] at before
      exact Position.lt_irrefl _ before
    · rw [spelt] at behind
      exact Position.lt_irrefl _ (Position.lt_of_lt_of_le behind (Position.le_of_lt before))

/-- A signature is bound to the node of a function if no earlier one has it. -/
theorem node_of_signature (records : Records t ds) (there : d ∈ ds) {signature : String}
    (function : d.signature? = some signature) (other : ¬ IsPlainName signature)
    (first : ∀ e ∈ ds, e.signature? = some signature → ¬ e.name.span.start < d.name.span.start)
    (bound : t.get? signature = some entry) : entry.node = d.node.id := by
  have text {e : Declaration} (there : e ∈ ds) :
      e.text = signature ↔ e.signature? = some signature :=
    Declaration.text_eq_iff_of_signature (records.proper e there).plain other
  obtain ⟨e, there', same, node, least⟩ := records.first signature entry bound
  rcases least d there ((text there).2 function) with equal | before
  · rw [← node, equal]
  · exact absurd before (first e there' ((text there').1 same))

end Records

end Tables

end Redeclaration

/-! Where the walk of the rule gets to. -/

theorem Form.ofClass_of_opens {form : Form Node} (opens : form.opens? = some .instances) :
    form.kind = .classDecl := by
  cases form with
  | classDecl => rfl
  | _ => cases opens

theorem Form.ofClass_of_opensStatics {form : Form Node} (opens : form.opensStatics = true) :
    form.kind = .classDecl := by
  cases form with
  | classDecl => rfl
  | _ => cases opens

namespace Redeclaration

/-- Without classes, a finding calls the declaration what it is. -/
theorem exists_sort_of_mem_check {site : Site} (other : site.node.kind ≠ .classDecl) {f : Finding}
    (found : f ∈ check site) : ∃ what name, sort? site.node.form = some what ∧
      site.node.declaredName? = some name ∧ f = alreadyUsed what name := by
  have calls {scope : ScopeId} {what : String} (sort : sort? site.node.form = some what)
      (found : f ∈ checkName site scope what) : ∃ what name, sort? site.node.form = some what ∧
        site.node.declaredName? = some name ∧ f = alreadyUsed what name := by
    unfold checkName at found
    split at found
    · cases found
    · next name named =>
      obtain ⟨-, one⟩ := List.mem_ite_nil_right.1 found
      exact ⟨what, name, sort, named, List.mem_singleton.1 one⟩
  obtain ⟨tree, ⟨id, span, form⟩, scope, parents⟩ := site
  cases form with
  | variableDecl | forEach | catchClause | parameter | importedName | generic =>
    exact calls rfl found
  | importDecl path rename exposed =>
    obtain ⟨declares, found⟩ := List.mem_ite_nil_right.1 found
    exact calls (if_pos declares) found
  | functionDecl name generics params =>
    replace found : f ∈ checkFunction _ name _ := found
    obtain ⟨-, one⟩ := List.mem_ite_nil_right.1 found
    exact ⟨"function", name, rfl, rfl, List.mem_singleton.1 one⟩
  | classDecl => exact absurd rfl other
  | _ => cases found

section Walk

variable {program : Node} {tree : ScopeTree} {record : List (Node × Regions ScopeId)} {v : Visit}

/-- Without classes there are no scopes of classes. -/
theorem not_isOfClass (builds : Builds program tree record) (free : ClassFree program)
    (s : ScopeId) : ¬tree.IsOfClass s := by
  rintro (kind | kind)
  all_goals
    obtain ⟨scope, is, kind⟩ := Option.map_eq_some_iff.1 kind
    have inner : scope.kind ≠ .program := by
      rw [kind]
      decide
    obtain ⟨n, r, o, there, opened, -, same, -⟩ := builds.opened is inner
    have other := free n (builds.mem_descendants there)
    rcases mem_openings.1 opened with ⟨kind', opens, rfl⟩ | ⟨opens, rfl⟩
  · exact other (Form.ofClass_of_opens (opens.trans (congrArg some (same.trans kind))))
  · exact other (Form.ofClass_of_opensStatics opens)
  · exact Form.opens?_ne_statics opens (same.trans kind)
  · exact other (Form.ofClass_of_opensStatics opens)

/-- Without classes the walk goes all the way out. -/
theorem relevant_eq (none : ∀ s, ¬tree.IsOfClass s) (path : List ScopeId) :
    relevant tree path = path ∧ tree.skipInstances path = path := by
  induction path with
  | nil => exact ⟨rfl, rfl⟩
  | cons s outer ih =>
    have notStatic : tree.kind? s ≠ some .statics := fun static => none s (.inr static)
    refine ⟨?_, by rw [ScopeTree.skipInstances_cons notStatic, ih.2]⟩
    cases outer with
    | nil => rfl
    | cons next outer =>
      rw [relevant_of_not_isOfClass (none s), if_neg fun instances => none next (.inl instances),
        ih.1]

/-- A name is taken exactly if a scope that the walk gets to has it bound to another node. -/
theorem isTaken_iff (builds : Builds program tree record) (visits : v ∈ walk program tree)
    {name : String} : isTaken tree v.scope v.node.id name = true ↔
      ∃ s ∈ relevant tree (tree.path v.scope), ∃ entry,
        (tree.table s).get? name = some entry ∧ entry.node ≠ v.node.id := by
  constructor
  · intro taken
    obtain ⟨entry, found, other⟩ := (Option.any_eq_true ..).1 taken
    obtain ⟨s, member, bound⟩ := List.exists_of_findSome?_eq_some found
    exact ⟨s, List.mem_reverse.1 member, entry, bound, of_decide_eq_true other⟩
  · rintro ⟨s, member, entry, bound, other⟩
    exact isTaken_of_bound builds visits member bound other

theorem declaration?_isSome_iff {s : ScopeId} {name : String} :
    (declaration? tree s name).isSome = true ↔
      ∃ s' ∈ relevant tree (tree.path s), (tree.table s').has name = true := by
  simp only [declaration?, List.findSome?_isSome_iff, List.mem_reverse]
  rfl

end Walk

/-! What the rule finds at a node, in terms of the regions around it. -/

theorem exists_mem_iff_of_forall₂ {α β : Type} {R : α → β → Prop} {xs : List α} {ys : List β}
    {P : α → Prop} {Q : β → Prop} (related : List.Forall₂ R xs ys)
    (same : ∀ x ∈ xs, ∀ y ∈ ys, R x y → (P x ↔ Q y)) : (∃ x ∈ xs, P x) ↔ ∃ y ∈ ys, Q y := by
  induction related with
  | nil => simp
  | cons first _ ih =>
    rw [List.exists_mem_cons_iff, List.exists_mem_cons_iff,
      same _ List.mem_cons_self _ List.mem_cons_self first,
      ih fun x there y there' => same x (.tail _ there) y (.tail _ there')]

theorem isDetail_of_parameter? {n : Node} {d : Declaration} (made : n.parameter? = some d) :
    d.node.form.isDetail = true := by
  unfold Node.parameter? at made
  split at made
  · next form =>
    cases made
    rw [form]
    rfl
  · next form =>
    cases made
    rw [form]
    rfl
  · cases made

/-- Only a loop or a handler itself declares its variable, in the block that it opens. -/
theorem own_of_mem_declarations {n : Node} {region : Region} {d : Declaration}
    (there : d ∈ n.declarations region) (details : ∀ m ∈ n.form.details, m.form.isDetail = true)
    (opens : d.node.form.opens? = some .block) : region = .own ∧ d.node = n := by
  have noDetail (detail : d.node.form.isDetail = true) : False := by
    rw [opens?_of_isDetail detail] at opens
    cases opens
  have parameters {ns : List Node} (there : d ∈ ns.filterMap Node.parameter?) : False := by
    obtain ⟨m, -, made⟩ := List.mem_filterMap.1 there
    exact noDetail (isDetail_of_parameter? made)
  have itself (region : Region) {name : Token} {sort : DeclarationSort}
      (there : d ∈ [⟨name, n, sort⟩]) (other : n.form.opens? ≠ some .block) :
      region = .own ∧ d.node = n := by
    obtain rfl := List.mem_singleton.1 there
    exact absurd opens other
  obtain ⟨id, span, form⟩ := n
  cases form with
  | forEach | catchClause =>
    cases region with
    | own =>
      obtain rfl := List.mem_singleton.1 there
      exact ⟨rfl, rfl⟩
    | around | statics => cases there
  | variableDecl =>
    cases region with
    | around => exact itself _ there nofun
    | own | statics => cases there
  | functionDecl name generics params =>
    cases region with
    | around => exact itself _ there nofun
    | own => exact (List.mem_append.1 there).elim (parameters · |>.elim) (parameters · |>.elim)
    | statics => cases there
  | classDecl name generics =>
    cases region with
    | around => exact itself _ there nofun
    | own => exact (parameters there).elim
    | statics => cases there
  | constructor params =>
    cases region with
    | own => exact (parameters there).elim
    | around | statics => cases there
  | importDecl path rename exposed =>
    cases region with
    | around =>
      cases rename with
      | some => exact itself _ there nofun
      | none =>
        by_cases empty : exposed.isEmpty
        · simp only [Node.declarations, empty, if_true, List.mem_map] at there
          obtain ⟨last, -, rfl⟩ := there
          cases opens
        · simp only [Node.declarations, empty, Bool.false_eq_true, if_false] at there
          obtain ⟨m, member, made⟩ := List.mem_filterMap.1 there
          obtain ⟨rfl, -⟩ := Node.of_listed? made
          exact (noDetail (details _ member)).elim
    | own | statics => cases there
  | _ => cases region <;> cases there

theorem ne_nil_of_forall₂ {α β : Type} {R : α → β → Prop} {xs : List α} {y : β} {ys : List β}
    (related : List.Forall₂ R xs (y :: ys)) : xs ≠ [] := by
  rintro rfl
  cases related

/-- Where a node is not bound itself, anything that is bound under a text is bound to another. -/
theorem exists_other_iff {t : SymbolTable} {text : String} {id : NodeId}
    (other : ∀ entry, t.get? text = some entry → entry.node ≠ id) :
    (∃ entry, t.get? text = some entry ∧ entry.node ≠ id) ↔ t.has text = true := by
  rw [SymbolTable.has, Option.isSome_iff_exists]
  exact exists_congr fun entry => and_iff_left_of_imp (other entry)

/-- The variable of a loop or of a handler is not bound outside the scope opened for it. -/
theorem ne_of_bound_of_block {program : Node} {tree : ScopeTree}
    {record : List (Node × Regions ScopeId)} (builds : Builds program tree record)
    (free : ClassFree program) {v : Visit} (visits : v ∈ walk program tree)
    (opens : v.node.form.opens? = some .block) {s : ScopeId} (outside : s ≤ v.scope)
    {text : String} {entry : SymbolEntry} (bound : (tree.table s).get? text = some entry) :
    entry.node ≠ v.node.id := by
  intro itself
  obtain ⟨k, r, region, b, there, planned, rfl, node⟩ := builds.exists_enter_of_bound bound
  have below := builds.mem_descendants there
  rcases of_enter_mem_plan planned with declared | ⟨-, ofClass⟩
  · obtain ⟨d, listed, rfl⟩ := List.mem_map.1 declared
    have number : d.node.id = v.node.id :=
      (congrArg Prod.snd d.pair_binding).symm.trans (node.trans itself)
    have under := (Node.descendants_sublist below).subset (Node.of_mem_declarations listed).1
    have same := List.inj_on_of_nodup_map builds.regular.distinct under
      (Walk.mem_descendants_of_mem visits) number
    have details : ∀ m ∈ k.form.details, m.form.isDetail = true := by
      intro m detail
      exact builds.regular.details k below m detail m m.mem_descendants_self
    rw [← same] at opens
    obtain ⟨rfl, rfl⟩ := own_of_mem_declarations listed details opens
    have own := builds.has_opened there (own_mem_openings r opens)
    rw [builds.scope_eq visits (same ▸ there)] at outside
    exact absurd own.behind (Nat.not_lt.2 outside)
  · exact free k below (Form.ofClass_of_opensStatics ofClass)

section Findings

variable {source : String} {tree : ScopeTree} {record : List (Node × Regions ScopeId)} {n : Node}
  {regions : List (List Declaration)} {v : Visit} {name : Token}

/-- What is declared under a name that is no function's is declared in the home regions. -/
theorem exists_homeRegions {tokens : List Token}
    (stands : Stands (parse tokens).program n regions) {what : String}
    (sort : nameSort? n.form = some what) (named : n.declaredName? = some name) :
    ∃ own outer, homeRegions n regions = own :: outer ∧ ⟨name, n, .plain⟩ ∈ own := by
  have below := stands.mem_descendants
  have around (declared : ⟨name, n, .plain⟩ ∈ n.declarations .around) :
      ∃ own outer, regions = own :: outer ∧ ⟨name, n, .plain⟩ ∈ own := by
    obtain ⟨own, outer, same, part⟩ := stands.declares
    refine ⟨own, outer, same, part ?_⟩
    rw [n.declarationsIn_eq]
    exact List.mem_append_left _ declared
  have detail (detail : n.form.isDetail = true) :
      ∃ own outer, regions = own :: outer ∧ ⟨name, n, .plain⟩ ∈ own := by
    cases stands with
    | program =>
      obtain ⟨id, span, body, tree, -⟩ := parse_conforms tokens
      rw [tree] at detail
      cases detail
    | @around m _ _ stands place =>
      have declared := mem_declarations_of_isDetail stands.mem_descendants place detail named
      obtain ⟨own, outer, same, part⟩ := stands.declares
      refine ⟨own, outer, same, part ?_⟩
      rw [m.declarationsIn_eq]
      exact List.mem_append_left _ declared
    | @inner m _ region _ stands place inner =>
      have declared := mem_declarations_of_isDetail stands.mem_descendants place detail named
      refine ⟨_, _, rfl, ?_⟩
      rw [m.declarationsIn_eq]
      exact List.mem_append_left _ declared
  have own (declared : ⟨name, n, .plain⟩ ∈ n.declarations .own) :
      ∃ own outer, n.declarationsIn .own :: regions = own :: outer ∧
        ⟨name, n, .plain⟩ ∈ own := by
    refine ⟨_, _, rfl, ?_⟩
    rw [n.declarationsIn_eq]
    exact List.mem_append_left _ declared
  obtain ⟨id, span, form⟩ := n
  cases form with
  | variableDecl =>
    cases named
    exact around List.mem_cons_self
  | parameter | generic | importedName => exact detail rfl
  | forEach | catchClause =>
    cases named
    exact own List.mem_cons_self
  | importDecl path rename exposed =>
    refine around ?_
    obtain ⟨declares, -⟩ := Option.ite_none_right_eq_some.1 sort
    cases rename with
    | some =>
      cases named
      exact List.mem_cons_self
    | none =>
      have last : path.getLast? = some name := named
      have empty : exposed.isEmpty = true := declares
      simp [Node.declarations, empty, last]
  | _ => cases sort

theorem homeRegions_of_block {what : String} (sort : nameSort? n.form = some what)
    (opens : n.form.opens? = some .block) (regions : List (List Declaration)) :
    homeRegions n regions = n.declarationsIn .own :: regions := by
  obtain ⟨id, span, form⟩ := n
  cases form with
  | forEach | catchClause => rfl
  | variableDecl | parameter | generic | importedName | importDecl => cases opens
  | _ => cases sort

theorem homeRegions_of_ne (other : n.form.opens? ≠ some .block)
    (regions : List (List Declaration)) : homeRegions n regions = regions := by
  obtain ⟨id, span, form⟩ := n
  cases form with
  | forEach | catchClause => exact absurd rfl other
  | _ => rfl

/-- In the block that a loop or a handler opens nothing comes before its variable. -/
theorem not_declaresBefore_own (below : n ∈ (parse (lex source).tokens).program.descendants)
    {what : String} (sort : nameSort? n.form = some what) (opens : n.form.opens? = some .block)
    (named : n.declaredName? = some name) : ¬DeclaresBefore (n.declarationsIn .own) name := by
  have first : n.declarations .own = [⟨name, n, .plain⟩] := by
    obtain ⟨id, span, form⟩ := n
    cases form with
    | forEach | catchClause =>
      cases named
      rfl
    | variableDecl | parameter | generic | importedName | importDecl => cases opens
    | _ => cases sort
  have ordered := declarationsIn_inOrder source below .own
  rw [n.declarationsIn_eq, first] at ordered ⊢
  rintro ⟨d, there, -, -, before⟩
  rcases List.mem_cons.1 there with rfl | there
  · exact Position.lt_irrefl _ before
  · have behind := (List.pairwise_cons.1 ordered).1 d there
    exact Position.lt_irrefl _ (Position.lt_of_lt_of_le before (Position.le_of_lt behind))

/-- Two declarations of a region by one node have one name. -/
theorem name_eq_of_isScopeOf {s : ScopeId} {ds : List Declaration}
    (isOf : IsScopeOf (parse (lex source).tokens).program tree s ds) {d e : Declaration}
    (there : d ∈ ds) (there' : e ∈ ds) (same : e.node.id = d.node.id) : e.name = d.name := by
  obtain ⟨m, below, region, -, rfl, -⟩ := isOf
  obtain ⟨under, named⟩ := Node.of_mem_declarationsIn there
  obtain ⟨under', named'⟩ := Node.of_mem_declarationsIn there'
  have part := Node.descendants_sublist below
  have node := List.inj_on_of_nodup_map (parse_isRegular (lex source).tokens).distinct
    (part.subset under') (part.subset under) same
  rw [node] at named'
  exact Option.some.inj (named'.symm.trans named)

variable (builds : Builds (parse (lex source).tokens).program tree record)
  (free : ClassFree (parse (lex source).tokens).program)
  (stands : Stands (parse (lex source).tokens).program n regions)
  (visits : v ∈ walk (parse (lex source).tokens).program tree) (node : v.node = n)

include builds free

theorem relevant_eq_lookupChain (s : ScopeId) :
    relevant tree (tree.path s) = tree.lookupChain s := by
  obtain ⟨whole, whole'⟩ := relevant_eq (not_isOfClass builds free) (tree.path s)
  rw [ScopeTree.lookupChain, whole, whole']

theorem lookupChain_eq_cons {s : ScopeId} (some : tree.lookupChain s ≠ []) :
    ∃ rest, tree.lookupChain s = s :: rest ∧ ∀ p ∈ rest, p < s := by
  rw [ScopeTree.lookupChain, (relevant_eq (not_isOfClass builds free) _).2,
    ScopeTree.path] at some ⊢
  split at some
  · exact absurd rfl some
  · next scope is => exact ⟨scope.around, rfl, builds.lt_of_mem_around is⟩

theorem le_of_mem_lookupChain {s p : ScopeId} (member : p ∈ tree.lookupChain s) : p ≤ s := by
  obtain ⟨rest, chain, further⟩ := lookupChain_eq_cons builds free (List.ne_nil_of_mem member)
  rcases List.mem_cons.1 (chain ▸ member) with rfl | member
  · exact Nat.le_refl _
  · exact Nat.le_of_lt (further p member)

include stands visits node

theorem hasFunction_iff_declares (text : String) : tree.hasFunction v.scope text = true ↔
    ∃ ds ∈ regions, DeclaresFunction ds text := by
  rw [ScopeTree.hasFunction, List.any_eq_true]
  refine exists_mem_iff_of_forall₂ (forall₂_of_stands builds stands visits node) ?_
  intro s _ ds _ isOf
  exact (records_of_isScopeOf free isOf).functions text

/-- The name is taken exactly if it is declared earlier in the home region or anywhere around it. -/
theorem isTaken_iff_declares {what : String} (sort : nameSort? n.form = some what)
    (named : n.declaredName? = some name) :
    isTaken tree v.scope v.node.id name.lexeme = true ↔
      DeclaresBefore ((homeRegions n regions).headD []) name ∨
        ∃ ds ∈ (homeRegions n regions).tail, DeclaresName ds name.lexeme := by
  have below := stands.mem_descendants
  have related := forall₂_of_stands builds stands visits node
  obtain ⟨there, kind⟩ := mem_lex_of_declaredName below named
  have plain := isPlainName_of_mem_lex source there kind
  have outside {s : ScopeId} {ds : List Declaration}
      (isOf : IsScopeOf (parse (lex source).tokens).program tree s ds)
      (other : ∀ entry, (tree.table s).get? name.lexeme = some entry → entry.node ≠ v.node.id) :=
    (exists_other_iff other).trans ((records_of_isScopeOf free isOf).has_iff plain)
  rw [isTaken_iff builds visits, relevant_eq_lookupChain builds free]
  by_cases opens : n.form.opens? = some .block
  · rw [homeRegions_of_block sort opens, List.headD_cons, List.tail_cons,
      or_iff_right (not_declaresBefore_own below sort opens named)]
    refine exists_mem_iff_of_forall₂ related fun s member ds _ isOf => outside isOf ?_
    intro entry bound
    exact ne_of_bound_of_block builds free visits (node ▸ opens)
      (le_of_mem_lookupChain builds free member) bound
  · obtain ⟨own, outer, home, declared⟩ := exists_homeRegions stands sort named
    rw [home, List.headD_cons, List.tail_cons]
    rw [homeRegions_of_ne opens] at home
    subst home
    obtain ⟨rest, chain, further⟩ := lookupChain_eq_cons builds free (ne_nil_of_forall₂ related)
    rw [chain] at related ⊢
    obtain ⟨isOf, others⟩ := List.forall₂_cons.1 related
    rw [List.exists_mem_cons_iff]
    refine or_congr ?_ (exists_mem_iff_of_forall₂ others fun s member ds _ isOf => outside isOf ?_)
    · have before := (records_of_isScopeOf free isOf).bound_iff_before declared rfl
        fun e there same => name_eq_of_isScopeOf isOf declared there same
      rwa [node]
    · intro entry bound same
      exact absurd (builds.scope_le_of_bound visits bound same) (Nat.not_le.2 (further s member))

/-- The signature of a function is taken exactly if a function further out has it. -/
theorem isTaken_iff_signature
    (built : buildScopes (parse (lex source).tokens).program = .ok tree)
    {generics params : List Node} {result : Option Node} {body : Option (List Node)}
    (function : n.form = .functionDecl name generics params result body) :
    isTaken tree v.scope v.node.id (Signature.ofFunction name generics params) = true ↔
      ∃ ds ∈ regions.tail, DeclaresSignature ds (Signature.ofFunction name generics params) := by
  have related := forall₂_of_stands builds stands visits node
  have other : ¬IsPlainName (Signature.ofFunction name generics params) :=
    not_isPlainName_text _ _ _
  obtain ⟨own, outer, rfl, part⟩ := stands.declares
  have declared : ⟨name, n, .ofFunction generics params⟩ ∈ own := by
    refine part ?_
    rw [n.declarationsIn_eq]
    refine List.mem_append_left _ ?_
    rw [Node.declarations.eq_def, function]
    exact List.mem_cons_self
  obtain ⟨rest, chain, further⟩ := lookupChain_eq_cons builds free (ne_nil_of_forall₂ related)
  rw [isTaken_iff builds visits, relevant_eq_lookupChain builds free]
  rw [chain] at related ⊢
  obtain ⟨isOf, others⟩ := List.forall₂_cons.1 related
  rw [List.exists_mem_cons_iff, List.tail_cons, or_iff_right]
  · refine exists_mem_iff_of_forall₂ others fun s member ds _ isOf => ?_
    refine (exists_other_iff ?_).trans ((records_of_isScopeOf free isOf).has_signature_iff other)
    intro entry bound same
    exact absurd (builds.scope_le_of_bound visits bound same) (Nat.not_le.2 (further s member))
  · -- Two functions of one signature in one region are in conflict.
    rintro ⟨entry, bound, differs⟩
    have records := records_of_isScopeOf free isOf
    refine differs ((records.node_of_signature declared rfl other ?_ bound).trans ?_)
    · intro e there same before
      obtain ⟨m, below, region, only, rfl, -⟩ := isOf
      exact not_conflict_of_ok built e _ ⟨⟨m, below, region, only, there, declared⟩, before,
        Declaration.excludes_of_signature? same rfl⟩
    · rw [node]

theorem declaration?_iff_declares (named : n.declaredName? = some name) :
    (declaration? tree v.scope name.lexeme).isSome = true ↔
      ∃ ds ∈ regions, DeclaresName ds name.lexeme := by
  obtain ⟨there, kind⟩ := mem_lex_of_declaredName stands.mem_descendants named
  have plain := isPlainName_of_mem_lex source there kind
  rw [declaration?_isSome_iff, relevant_eq_lookupChain builds free]
  refine exists_mem_iff_of_forall₂ (forall₂_of_stands builds stands visits node) ?_
  intro s _ ds _ isOf
  exact (records_of_isScopeOf free isOf).has_iff plain

/-- What the rule finds at a declaration that is none of a function. -/
theorem check_of_name {what : String} (sort : nameSort? n.form = some what)
    (named : n.declaredName? = some name) :
    check (v.site tree) = if IsNameUsed n regions name then [alreadyUsed what name] else [] := by
  have goes : check (v.site tree) = checkName (v.site tree) v.scope what := by
    have outer : scopeOfGeneric tree v.scope = v.scope :=
      if_neg fun instances => not_isOfClass builds free v.scope (.inl instances)
    subst node
    cases form : v.node.form with
    | generic =>
      rw [form] at sort
      cases sort
      rw [check, show (v.site tree).node = v.node from rfl, form]
      exact congrArg (checkName _ · _) outer
    | _ =>
      refine check_of_localSort ?_
      rw [form] at sort
      rw [show (v.site tree).node = v.node from rfl, form]
      exact sort
  have used : (isTaken tree v.scope v.node.id name.lexeme ||
      tree.hasFunction v.scope name.lexeme) = true ↔ IsNameUsed n regions name := by
    rw [Bool.or_eq_true, isTaken_iff_declares builds free stands visits node sort named,
      hasFunction_iff_declares builds free stands visits node, or_assoc]
    rfl
  rw [goes, checkName, show (v.site tree).node = v.node from rfl, node, named]
  rw [node] at used
  exact if_congr used rfl rfl

/-- What it finds at a function. -/
theorem check_of_function (built : buildScopes (parse (lex source).tokens).program = .ok tree)
    {generics params : List Node} {result : Option Node} {body : Option (List Node)}
    (function : n.form = .functionDecl name generics params result body) :
    check (v.site tree) =
      if IsFunctionUsed regions name.lexeme (Signature.ofFunction name generics params) then
        [alreadyUsed "function" name] else [] := by
  have named : n.declaredName? = some name := by
    rw [Node.declaredName?, function]
    rfl
  have used : ((declaration? tree v.scope name.lexeme).isSome ||
      isTaken tree v.scope v.node.id (Signature.ofFunction name generics params)) = true ↔
        IsFunctionUsed regions name.lexeme (Signature.ofFunction name generics params) := by
    rw [Bool.or_eq_true, declaration?_iff_declares builds free stands visits node named,
      isTaken_iff_signature builds free stands visits node built function]
    rfl
  rw [check, show (v.site tree).node = v.node from rfl, node, function]
  exact if_congr used rfl rfl

/-- What it finds at a declaration. -/
theorem check_of_sort (built : buildScopes (parse (lex source).tokens).program = .ok tree)
    {what : String} (sort : sort? n.form = some what) (named : n.declaredName? = some name) :
    check (v.site tree) = if IsUsed n regions name then [alreadyUsed what name] else [] := by
  cases form : n.form with
  | functionDecl own generics params =>
    rw [form] at sort
    cases sort
    rw [Node.declaredName?, form] at named
    cases named
    rw [check_of_function builds free stands visits node built form]
    refine if_congr ?_ rfl rfl
    rw [IsUsed, signature?, form]
  | _ =>
    have sort : nameSort? n.form = some what := by
      rw [form] at sort ⊢
      exact sort
    rw [check_of_name builds free stands visits node sort named]
    refine if_congr ?_ rfl rfl
    rw [IsUsed, signature?, form]

end Findings

end Redeclaration

open Redeclaration in
/-- What the rule on names in use reports of the program of a text without classes. Every
    declaration stands in regions whose declarations are known. One that is none of a function is
    reported, and once, exactly if its name is declared earlier in its own region, anywhere around
    that as anything but a function, or as a function where it is looked at. A function is, and
    once, exactly if its name is that of anything else that can be seen, or its signature that of a
    function further out. Nothing else is reported. -/
theorem lint_redeclarations (source : String) (config : LintConfig)
    (enabled : config.disabled.contains "illegal-redeclaration" = false) {tree : ScopeTree}
    (built : buildScopes (parse (lex source).tokens).program = .ok tree)
    (free : ClassFree (parse (lex source).tokens).program) :
    (∀ n ∈ (parse (lex source).tokens).program.descendants,
      ∃ regions, Stands (parse (lex source).tokens).program n regions) ∧
    (∀ n regions, Stands (parse (lex source).tokens).program n regions →
      ∀ what name, sort? n.form = some what → n.declaredName? = some name →
        (lint config (parse (lex source).tokens).program tree).filter
            (fun d => d.source = "illegal-redeclaration" ∧ d.span = name.span) =
          if IsUsed n regions name then
            [(alreadyUsed what name).diagnostic "illegal-redeclaration"] else []) ∧
    ∀ d ∈ lint config (parse (lex source).tokens).program tree,
      d.source = "illegal-redeclaration" →
        ∃ n ∈ (parse (lex source).tokens).program.descendants, ∃ what name,
          sort? n.form = some what ∧ n.declaredName? = some name ∧
            d = (alreadyUsed what name).diagnostic "illegal-redeclaration" := by
  obtain ⟨record, builds⟩ := builds_of_ok (parse_isRegular _) built
  refine ⟨fun n below => Stands.exists_regions below, ?_, ?_⟩
  · intro n regions stands what name sort named
    obtain ⟨s, above, visits⟩ := Walk.exists_entered tree stands.mem_descendants
    refine (filter_lint_name enabled free visits named).trans ?_
    rw [check_of_sort builds free stands visits rfl built sort named,
      apply_ite (List.map (Finding.diagnostic rule.name))]
    rfl
  · intro d reported same
    have there : d ∈ (lint config _ tree).filter (·.source = rule.name) :=
      List.mem_filter.2 ⟨reported, decide_eq_true same⟩
    rw [filter_lint List.mem_cons_self enabled, mem_inSourceOrder, List.mem_flatMap] at there
    obtain ⟨v, entered, there⟩ := there
    obtain ⟨f, found, rfl⟩ := List.mem_map.1 there
    have below := Walk.mem_descendants_of_mem (List.mem_filter.1 entered).1
    obtain ⟨what, name, sort, named, rfl⟩ := exists_sort_of_mem_check (free v.node below) found
    exact ⟨v.node, below, what, name, sort, named, rfl⟩

open Redeclaration in
/-- A variable of a function is reported for that of the program. -/
theorem lint_redeclarations_nested :
    let program := (parse (lex "var x = 1\nfunction f()\n  var x = 2\n").tokens).program
    ∃ tree n regions name, buildScopes program = .ok tree ∧ ClassFree program ∧
      Stands program n regions ∧ regions.length = 2 ∧ sort? n.form = some "variable" ∧
      n.declaredName? = some name ∧ IsUsed n regions name ∧
      (lint .standard program tree).filter
          (fun d => d.source = "illegal-redeclaration" ∧ d.span = name.span) =
        [(alreadyUsed "variable" name).diagnostic "illegal-redeclaration"] := by
  intro program
  have free : ClassFree program := by decide +kernel
  have built : (buildScopes program).toOption.any (fun _ => true) = true := by decide +kernel
  have test : program.placed.any (fun f => f.2.placed.any fun n => n.2.declaredName?.any fun name =>
      decide (f.1 = .around ∧ n.1 = .own ∧ sort? n.2.form = some "variable" ∧
        IsUsed n.2 [f.2.declarationsIn .own, program.declarationsIn .around] name)) = true := by
    decide +kernel
  obtain ⟨tree, built, -⟩ := exists_of_any built
  obtain ⟨⟨region, f⟩, place, test⟩ := List.any_eq_true.1 test
  obtain ⟨⟨region', n⟩, place', test⟩ := List.any_eq_true.1 test
  obtain ⟨name, named, test⟩ := (Option.any_eq_true ..).1 test
  obtain ⟨rfl, rfl, sort, used⟩ := of_decide_eq_true test
  have stands : Stands program n _ := .inner (.around .program place) place' nofun
  have reported := (lint_redeclarations _ .standard rfl built free).2.1 n _ stands _ name sort named
  exact ⟨tree, n, _, name, built, free, stands, rfl, sort, named, used,
    reported.trans (if_pos used)⟩

end TekLang
