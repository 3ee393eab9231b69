import TekLang.Proofs.Lint.Reports
import TekLang.Proofs.Renaming.Parsing
import TekLang.Proofs.Renaming.Scopes
import TekLang.Proofs.Scope.Region

/-!
# Reports with other names

A walk through a tree with other names goes the same way. At each node every rule finds what it
finds without the renaming: whether a name is in use depends on which names are the same and not on
what they are, and apart from global names, so does whether it is declared. Only the names that are
quoted in the reports are other ones.
-/

namespace TekLang

instance : Renamable Region := ⟨fun _ => id⟩

instance : Renamable Visit where
  renamed ρ v := ⟨v.phase, renamed ρ v.node, v.scope, renamed ρ v.parents⟩

instance : Renamable Site where
  renamed ρ site := ⟨renamed ρ site.tree, renamed ρ site.node, site.scope, renamed ρ site.parents⟩

variable {ρ : Renaming}

/-! ### Walks -/

theorem inRegion_renamed (region : Region) (ns : List Node) :
    inRegion region (renamed ρ ns) = renamed ρ (inRegion region ns) := by
  simp [inRegion, renamed]

theorem Region.ofMember_renamed (member : Node) :
    Region.ofMember (renamed ρ member) = .ofMember member := by
  obtain ⟨id, span, form⟩ := member
  rw [Node.renamed_mk]
  cases form with
  | classMember isStatic value => cases isStatic <;> rfl
  | _ => rfl

theorem inMemberRegions_renamed (members : List Node) :
    inMemberRegions (renamed ρ members) = renamed ρ (inMemberRegions members) := by
  simp only [inMemberRegions, renamed, List.map_map]
  exact List.map_congr_left fun m _ => congrArg (·, _) (Region.ofMember_renamed m)

theorem renamed_append {α : Type} [Renamable α] (xs ys : List α) :
    renamed ρ (xs ++ ys) = renamed ρ xs ++ renamed ρ ys := List.map_append

theorem toList_renamed {α : Type} [Renamable α] (x? : Option α) :
    (renamed ρ x?).toList = renamed ρ x?.toList := by
  cases x? <;> rfl

/-- The children of a node stand in the same regions. -/
theorem Node.placed_renamed (n : Node) : (renamed ρ n).placed = renamed ρ n.placed := by
  have all := n.children_renamed (ρ := ρ)
  obtain ⟨id, span, form⟩ := n
  rw [Node.renamed_mk] at all ⊢
  cases form with
  | classDecl name generics bases constructors statics instances =>
    have members : inSourceOrder start (renamed ρ (constructors ++ statics ++ instances)) =
        renamed ρ (inSourceOrder start (constructors ++ statics ++ instances)) :=
      (map_inSourceOrder start_renamed _).symm
    change inRegion .own (renamed ρ generics) ++ inRegion .own (renamed ρ bases) ++
      inMemberRegions (inSourceOrder start
        (renamed ρ constructors ++ renamed ρ statics ++ renamed ρ instances)) =
      renamed ρ (inRegion .own generics ++ inRegion .own bases ++
        inMemberRegions (inSourceOrder start (constructors ++ statics ++ instances)))
    rw [← renamed_append, ← renamed_append, members, inMemberRegions_renamed, inRegion_renamed,
      inRegion_renamed, ← renamed_append, ← renamed_append]
  | functionDecl | constructor => exact (congrArg _ all).trans (inRegion_renamed .own _)
  | conditional use condition body otherwise =>
    change inRegion .around [renamed ρ condition] ++ inRegion .own (renamed ρ body) ++
      inRegion .around (renamed ρ otherwise).toList = renamed ρ (inRegion .around [condition] ++
        inRegion .own body ++ inRegion .around otherwise.toList)
    rw [toList_renamed, inRegion_renamed, inRegion_renamed, renamed_append, renamed_append]
    rfl
  | elseBranch use body => exact inRegion_renamed .own body
  | switchCase conditions body =>
    change inRegion .around (renamed ρ conditions) ++ inRegion .own (renamed ρ body) = _
    rw [inRegion_renamed, inRegion_renamed, ← renamed_append]
    rfl
  | forEach name type iterable body =>
    change inRegion .around (renamed ρ type).toList ++ inRegion .around [renamed ρ iterable] ++
      inRegion .own (renamed ρ body) = renamed ρ (inRegion .around type.toList ++
        inRegion .around [iterable] ++ inRegion .own body)
    rw [toList_renamed, inRegion_renamed, inRegion_renamed, renamed_append, renamed_append]
    rfl
  | repeatTimes header body | whileLoop header body =>
    change inRegion .around [renamed ρ header] ++ inRegion .own (renamed ρ body) = _
    rw [inRegion_renamed]
    rfl
  | tryCatch body handler =>
    change inRegion .own (renamed ρ body) ++ inRegion .around [renamed ρ handler] =
      renamed ρ (inRegion .own body ++ inRegion .around [handler])
    rw [inRegion_renamed, renamed_append]
    rfl
  | catchClause name type body =>
    change inRegion .around (renamed ρ type).toList ++ inRegion .own (renamed ρ body) = _
    rw [toList_renamed, inRegion_renamed, inRegion_renamed, ← renamed_append]
    rfl
  | _ => exact (congrArg _ all).trans (inRegion_renamed .around _)

namespace Walk

theorem regions_renamed (tree : ScopeTree) (scope : ScopeId) (n : Node) :
    regions (renamed ρ tree) scope (renamed ρ n) = regions tree scope n := by
  rw [regions, regions, Node.id_renamed, ScopeTree.ownScope?_renamed, ScopeTree.statics?_renamed]

/-- A walk passes with other names what it passes without, in the same scopes. -/
theorem node_renamed (tree : ScopeTree) (parents : List Node) (scope : ScopeId) (n : Node) :
    node (renamed ρ tree) (renamed ρ parents) scope (renamed ρ n) =
      renamed ρ (node tree parents scope n) := by
  induction n using Node.induction_on_children generalizing parents scope with
  | step n ih =>
    rw [node_eq, node_eq, n.placed_renamed, regions_renamed]
    refine congrArg (List.cons _) (Eq.trans ?_ (renamed_append _ _).symm)
    refine congrArg (· ++ _) ((List.flatMap_map _ _ _).trans ?_)
    refine (List.flatMap_congr ?_).trans List.map_flatMap.symm
    intro child stands
    exact ih child.2 (Node.mem_children_of_mem_placed stands) (n :: parents) _

end Walk

/-! ### Rules -/

namespace Site

variable (site : Site)

@[simp] theorem tree_renamed : (renamed ρ site).tree = renamed ρ site.tree := rfl

@[simp] theorem node_renamed : (renamed ρ site).node = renamed ρ site.node := rfl

@[simp] theorem scope_renamed : (renamed ρ site).scope = site.scope := rfl

@[simp] theorem parents_renamed : (renamed ρ site).parents = renamed ρ site.parents := rfl

end Site

namespace Redeclaration

/-- What can be declared with a name that is in use. -/
def sorts : List String := ["variable", "param", "import", "function", "class", "generic"]

end Redeclaration

/-- A report and what it is with other names: the name it quotes is another one. Where nothing is
    quoted it is the same. -/
inductive Diagnostic.IsRenamed (ρ : Renaming) : Diagnostic → Diagnostic → Prop
  | taken {what : String} {name : Token} (sort : what ∈ Redeclaration.sorts)
    (named : name.kind = .identifier ∧ IsName name.lexeme) :
    IsRenamed ρ
      ⟨"illegal-redeclaration", "You can't declare a " ++ what ++ " with the name '" ++
        name.lexeme ++ "', because it is already used", name.span⟩
      ⟨"illegal-redeclaration", "You can't declare a " ++ what ++ " with the name '" ++
        ρ.image name.lexeme ++ "', because it is already used", name.span⟩
  | constructor (span : Span) :
    IsRenamed ρ ⟨"illegal-redeclaration", "Identical constructor overload exists", span⟩
      ⟨"illegal-redeclaration", "Identical constructor overload exists", span⟩
  | undefined {name : Token} (named : name.kind = .identifier ∧ IsName name.lexeme) :
    IsRenamed ρ ⟨"no-undefined", "No symbol with the name '" ++ name.lexeme ++ "'", name.span⟩
      ⟨"no-undefined", "No symbol with the name '" ++ ρ.image name.lexeme ++ "'", name.span⟩
  | placement {d : Diagnostic} (other : d.source ∉ ["illegal-redeclaration", "no-undefined"]) :
    IsRenamed ρ d d

/-- What a rule reports, and what it reports with other names. -/
def AreRenamed (ρ : Renaming) (rule : String) (found found' : List Finding) : Prop :=
  List.Forall₂ (Diagnostic.IsRenamed ρ) (found.map (Finding.diagnostic rule))
    (found'.map (Finding.diagnostic rule))

namespace AreRenamed

variable {rule : String}

theorem nil : AreRenamed ρ rule [] [] := List.Forall₂.nil

theorem append {found found' more more' : List Finding} (first : AreRenamed ρ rule found found')
    (second : AreRenamed ρ rule more more') :
    AreRenamed ρ rule (found ++ more) (found' ++ more') := by
  unfold AreRenamed
  rw [List.map_append, List.map_append]
  exact List.rel_append first second

end AreRenamed

/-- A rule finds at a site with other names what it finds at the site. -/
def Rule.IsRenamedAt (ρ : Renaming) (r : Rule) (site : Site) : Prop :=
  AreRenamed ρ r.name (r.check site) (r.check (renamed ρ site))

/-- A rule that quotes nothing reports the same if it finds the same. -/
theorem Rule.isRenamedAt_of_eq {r : Rule} {site : Site}
    (other : r.name ∉ ["illegal-redeclaration", "no-undefined"])
    (same : r.check (renamed ρ site) = r.check site) : r.IsRenamedAt ρ site := by
  rw [IsRenamedAt, same]
  refine List.forall₂_same.2 fun d reported => .placement ?_
  obtain ⟨f, -, rfl⟩ := List.mem_map.1 reported
  exact other

theorem ClassPlacement.isRenamedAt (site : Site) : rule.IsRenamedAt ρ site := by
  have outer : ((renamed ρ site.parents).head?.map (·.kind)) = site.parents.head?.map (·.kind) := by
    cases site.parents with
    | nil => rfl
    | cons parent => exact congrArg some parent.kind_renamed
  have same : check (renamed ρ site) = check site := by
    unfold check
    rw [Site.node_renamed, Site.parents_renamed, outer, Node.form_renamed, Node.span_renamed]
    cases site.node.form <;> rfl
  exact Rule.isRenamedAt_of_eq (by decide) same

theorem ControlPlacement.isRenamedAt (site : Site) : rule.IsRenamedAt ρ site := by
  have kinds : (renamed ρ site.parents).map (·.kind) = site.parents.map (·.kind) :=
    List.map_map.trans (List.map_congr_left fun m _ => m.kind_renamed)
  have same : check (renamed ρ site) = check site := by
    unfold check
    rw [Site.node_renamed, Site.parents_renamed, kinds, Node.kind_renamed, Node.span_renamed]
  exact Rule.isRenamedAt_of_eq (by decide) same

theorem ClassBody.offence?_renamed (member : Node) :
    offence? (renamed ρ member) = offence? member := by
  obtain ⟨id, span, form⟩ := member
  rw [Node.renamed_mk]
  cases form with
  | classMember isStatic value =>
    change (if (renamed ρ value).kind.category = .declaration then none else some _) = _
    rw [value.kind_renamed, value.span_renamed]
    rfl
  | _ => rfl

theorem ClassBody.isRenamedAt (site : Site) : rule.IsRenamedAt ρ site := by
  have same : check (renamed ρ site) = check site := by
    unfold check
    rw [Site.node_renamed, Node.form_renamed]
    cases site.node.form with
    | classDecl name generics bases constructors statics instances =>
      change (renamed ρ statics ++ renamed ρ instances).filterMap offence? = _
      rw [← renamed_append]
      refine List.filterMap_map.trans (List.filterMap_congr ?_)
      exact fun member _ => offence?_renamed member
    | _ => rfl
  exact Rule.isRenamedAt_of_eq (by decide) same

theorem IfValue.isRenamedAt (site : Site) : rule.IsRenamedAt ρ site := by
  have same : check (renamed ρ site) = check site := by
    unfold check
    rw [Site.node_renamed, Node.form_renamed, Node.span_renamed]
    cases site.node.form with
    | conditional use condition body otherwise => cases use <;> cases otherwise <;> rfl
    | _ => rfl
  exact Rule.isRenamedAt_of_eq (by decide) same

namespace Undefined

theorem usedName?_renamed (form : Form Node) :
    usedName? (renamed ρ form) = renamed ρ (usedName? form) := by
  cases form with
  | typeRef path =>
    cases path with
    | nil => rfl
    | cons name path => cases path <;> rfl
  | _ => rfl

theorem mem_names_of_usedName {form : Form Node} {name : Token}
    (uses : usedName? form = some name) : name ∈ form.names := by
  cases form with
  | typeRef path =>
    cases path with
    | nil => cases uses
    | cons name path =>
      cases path <;> cases uses
      exact List.mem_cons_self
  | identifier =>
    cases uses
    exact List.mem_cons_self
  | _ => cases uses

theorem check_of_usedName {globals : NameSet} {site : Site} {name : Token}
    (uses : usedName? site.node.form = some name) :
    check globals site = if isDefined globals site name.lexeme then []
      else [⟨"No symbol with the name '" ++ name.lexeme ++ "'", name.span⟩] := by
  rw [check, uses]

/-- Unless a name becomes global or ceases to be, it is declared exactly if it was. -/
theorem isRenamedAt {globals : NameSet} {site : Site} (named : site.node.IsNamed)
    (same : ∀ t ∈ site.node.form.names,
      globals.contains (ρ.image t.lexeme) = globals.contains t.lexeme) :
    (rule globals).IsRenamedAt ρ site := by
  have form : usedName? (renamed ρ site).node.form = renamed ρ (usedName? site.node.form) := by
    rw [Site.node_renamed, Node.form_renamed, usedName?_renamed]
  change AreRenamed ρ _ (check globals site) (check globals (renamed ρ site))
  cases uses : usedName? site.node.form with
  | none =>
    rw [uses] at form
    rw [check, check, uses, form]
    exact .nil
  | some name =>
    have there := mem_names_of_usedName uses
    have own := named.own there
    rw [uses] at form
    have defined : isDefined globals (renamed ρ site) (ρ.image name.lexeme) =
        isDefined globals site name.lexeme := by
      unfold isDefined
      rw [same name there, ← ρ.text_of_isName own.2, Site.tree_renamed, Site.scope_renamed,
        ScopeTree.hasSymbol_renamed, ScopeTree.hasFunction_renamed]
    rw [check_of_usedName uses, check_of_usedName form, Token.lexeme_renamed own.1, defined]
    split
    · exact .nil
    · exact .cons (.undefined own) .nil

end Undefined

namespace Redeclaration

@[simp] theorem relevant_renamed (tree : ScopeTree) (path : List ScopeId) :
    relevant (renamed ρ tree) path = relevant tree path := by
  fun_induction relevant tree path with
  | case1 => rfl
  | case2 => rfl
  | case3 id next outer ofClass =>
    rw [relevant, ScopeTree.kind?_renamed, if_pos ofClass]
  | case4 id next outer other past all =>
    rw [relevant, ScopeTree.kind?_renamed, if_neg other, ScopeTree.kind?_renamed, past, all]

@[simp] theorem declaration?_renamed (tree : ScopeTree) (scope : ScopeId) (name : String) :
    declaration? (renamed ρ tree) scope (ρ.text name) = declaration? tree scope name := by
  simp [declaration?]

@[simp] theorem isTaken_renamed (tree : ScopeTree) (scope : ScopeId) (node : NodeId)
    (name : String) :
    isTaken (renamed ρ tree) scope node (ρ.text name) = isTaken tree scope node name := by
  simp [isTaken]

theorem areRenamed_taken {what : String} (sort : what ∈ sorts) {name : Token}
    (named : name.kind = .identifier ∧ IsName name.lexeme) :
    AreRenamed ρ rule.name [alreadyUsed what name] [alreadyUsed what (renamed ρ name)] := by
  refine .cons ?_ .nil
  unfold alreadyUsed
  rw [Token.lexeme_renamed named.1]
  exact .taken sort named

theorem checkName_renamed {site : Site} (named : site.node.IsNamed) (scope : ScopeId)
    {what : String} (sort : what ∈ sorts) :
    AreRenamed ρ rule.name (checkName site scope what) (checkName (renamed ρ site) scope what) := by
  unfold checkName
  rw [Site.node_renamed, Node.declaredName?_renamed]
  cases declares : site.node.declaredName? with
  | none => exact .nil
  | some name =>
    have own := named.own (Form.mem_names_of_declaredName declares)
    change AreRenamed ρ _ (if _ then _ else _) (if (isTaken (renamed ρ site).tree scope
      (renamed ρ site.node).id (renamed ρ name).lexeme || (renamed ρ site).tree.hasFunction scope
        (renamed ρ name).lexeme) = true then [alreadyUsed what (renamed ρ name)] else [])
    rw [Token.lexeme_renamed_eq_text own, Site.tree_renamed, isTaken_renamed,
      ScopeTree.hasFunction_renamed, Node.id_renamed]
    split
    · exact areRenamed_taken sort own
    · exact .nil

theorem checkFunction_renamed (site : Site) {name : Token}
    (named : name.kind = .identifier ∧ IsName name.lexeme) (signature : String) :
    AreRenamed ρ rule.name (checkFunction site name signature)
      (checkFunction (renamed ρ site) (renamed ρ name) (ρ.text signature)) := by
  unfold checkFunction
  rw [Site.tree_renamed, Site.scope_renamed, Site.node_renamed, Token.lexeme_renamed_eq_text named,
    declaration?_renamed, isTaken_renamed, Node.id_renamed]
  split
  · exact areRenamed_taken (by decide) named
  · exact .nil

/-- Keys of which no two become the same are repeated where they were. -/
theorem repeated_renamed {key key' : Node → Option String} {ns : List Node}
    (keys : ∀ n ∈ ns, key' (renamed ρ n) = (key n).map ρ.text) (seen : List String) :
    repeated key' (renamed ρ ns) (seen.map ρ.text) = renamed ρ (repeated key ns seen) := by
  induction ns generalizing seen with
  | nil => rfl
  | cons n ns ih =>
    obtain ⟨first, others⟩ := List.forall_mem_cons.1 keys
    have ih := ih others
    change repeated key' (renamed ρ n :: renamed ρ ns) _ = _
    rw [repeated, repeated, first]
    cases key n with
    | none => exact ih seen
    | some k =>
      have known : ρ.text k ∈ seen.map ρ.text ↔ k ∈ seen :=
        List.mem_map_of_injective ρ.text_injective
      dsimp only [Option.map]
      by_cases there : k ∈ seen
      · rw [if_pos there, if_pos (known.2 there), ih]
        rfl
      · rw [if_neg there, if_neg (mt known.1 there)]
        exact ih (k :: seen)

theorem checkConstructors_renamed {generics constructors : List Node}
    (generic : ∀ g ∈ generics, g.IsNamed) (named : ∀ n ∈ constructors, n.IsNamed) :
    AreRenamed ρ rule.name (checkConstructors generics constructors)
      (checkConstructors (renamed ρ generics) (renamed ρ constructors)) := by
  unfold checkConstructors
  extract_lets signature signature'
  have keys : ∀ n ∈ constructors, signature' (renamed ρ n) = (signature n).map ρ.text := by
    intro n there
    have named := named n there
    obtain ⟨id, span, form⟩ := n
    rw [Node.renamed_mk]
    cases form with
    | constructor params body =>
      have part (p : Node) (there : p ∈ params) : p.IsNamed :=
        named.part (List.mem_append_left _ there)
      exact congrArg some (Signature.ofConstructor_renamed generic part)
    | _ => rfl
  have repeats := repeated_renamed keys []
  rw [List.map_nil] at repeats
  rw [repeats]
  refine List.forall₂_map_left_iff.2 (List.forall₂_map_left_iff.2 ?_)
  refine List.forall₂_map_right_iff.2 (List.forall₂_map_right_iff.2 ?_)
  refine List.forall₂_map_right_iff.2 (List.forall₂_same.2 fun n _ => ?_)
  rw [n.span_renamed]
  exact .constructor n.span

theorem areRenamed_generics {ns : List Node} (named : ∀ n ∈ ns, n.IsNamed) :
    AreRenamed ρ rule.name (ns.filterMap fun n => n.declaredName?.map (alreadyUsed "generic"))
      ((renamed ρ ns).filterMap fun n => n.declaredName?.map (alreadyUsed "generic")) := by
  induction ns with
  | nil => exact .nil
  | cons n ns ih =>
    obtain ⟨first, others⟩ := List.forall_mem_cons.1 named
    have ih := ih others
    change AreRenamed ρ rule.name _ ((renamed ρ n :: renamed ρ ns).filterMap _)
    rw [List.filterMap_cons, List.filterMap_cons, n.declaredName?_renamed]
    cases declares : n.declaredName? with
    | none => exact ih
    | some name =>
      have own := first.own (Form.mem_names_of_declaredName declares)
      exact List.rel_append (areRenamed_taken (by decide) own) ih

theorem checkGenerics_renamed {generics : List Node} (generic : ∀ g ∈ generics, g.IsNamed) :
    AreRenamed ρ rule.name (checkGenerics generics) (checkGenerics (renamed ρ generics)) := by
  let key (n : Node) : Option String := n.declaredName?.map (·.lexeme)
  have keys : ∀ n ∈ generics, key (renamed ρ n) = (key n).map ρ.text := by
    intro n there
    dsimp only [key]
    rw [n.declaredName?_renamed]
    cases declares : n.declaredName? with
    | none => rfl
    | some name =>
      have own := (generic n there).own (Form.mem_names_of_declaredName declares)
      exact congrArg some (Token.lexeme_renamed_eq_text own)
  have repeats : repeated key (renamed ρ generics) [] = renamed ρ (repeated key generics []) :=
    repeated_renamed keys []
  unfold checkGenerics
  rw [repeats]
  exact areRenamed_generics fun n there => generic n ((repeated_sublist key _ _).subset there)

/-- A name is in use exactly if it was, for no two names have become the same. -/
theorem isRenamedAt {site : Site} (named : site.node.IsNamed) : rule.IsRenamedAt ρ site := by
  have name (scope : ScopeId) {what : String} (sort : what ∈ sorts) :
      AreRenamed ρ rule.name (checkName site scope what) (checkName (renamed ρ site) scope what) :=
    checkName_renamed named scope sort
  have part {m : Node} (there : m ∈ site.node.form.parts) : m.IsNamed := named.part there
  change AreRenamed ρ rule.name (check site) (check (renamed ρ site))
  unfold check
  rw [Site.node_renamed, Node.form_renamed]
  cases form : site.node.form with
  | variableDecl | forEach | catchClause | parameter | importedName =>
    exact name site.scope (by decide)
  | generic =>
    have outer : scopeOfGeneric (renamed ρ site).tree (renamed ρ site).scope =
        scopeOfGeneric site.tree site.scope := by
      rw [Site.tree_renamed, Site.scope_renamed, scopeOfGeneric, ScopeTree.kind?_renamed,
        ScopeTree.parent?_renamed, scopeOfGeneric]
    rw [outer]
    exact name _ (by decide)
  | importDecl path rename exposed =>
    have alone : ((renamed ρ rename).isSome || (renamed ρ exposed).isEmpty) =
        (rename.isSome || exposed.isEmpty) := by
      change ((rename.map _).isSome || (exposed.map _).isEmpty) = _
      rw [Option.isSome_map, List.isEmpty_map]
    change AreRenamed ρ rule.name (if _ then _ else _)
      (if ((renamed ρ rename).isSome || (renamed ρ exposed).isEmpty) = true then _ else _)
    rw [alone]
    split
    · exact name site.scope (by decide)
    · exact .nil
  | functionDecl own generics params result body =>
    rw [form] at part
    have self : own.kind = .identifier ∧ IsName own.lexeme := named.own (by simp [form, Form.names])
    have generic (g : Node) (there : g ∈ generics) : g.IsNamed := part (by simp [Form.parts, there])
    have parameter (p : Node) (there : p ∈ params) : p.IsNamed := part (by simp [Form.parts, there])
    have found := checkFunction_renamed (ρ := ρ) site self
      (Signature.ofFunction own generics params)
    rw [← Signature.ofFunction_renamed generic parameter self] at found
    exact found
  | classDecl own generics bases constructors statics instances =>
    rw [form] at part
    have generic (g : Node) (there : g ∈ generics) : g.IsNamed := part (by simp [Form.parts, there])
    have building (m : Node) (there : m ∈ constructors) : m.IsNamed := by
      exact part (by simp [Form.parts, there])
    exact ((name site.scope (by decide)).append (checkConstructors_renamed generic building)).append
      (checkGenerics_renamed generic)
  | _ => exact .nil

end Redeclaration

/-! ### The front end -/

theorem Diagnostic.IsRenamed.span_eq {d e : Diagnostic} (related : d.IsRenamed ρ e) :
    e.span = d.span := by
  cases related <;> rfl

/-- Every rule finds at a site with other names what it finds at the site. -/
theorem Site.diagnostics_renamed {config : LintConfig} {site : Site} (named : site.node.IsNamed)
    (same : ∀ t ∈ site.node.form.names,
      config.globals.contains (ρ.image t.lexeme) = config.globals.contains t.lexeme) :
    List.Forall₂ (Diagnostic.IsRenamed ρ)
      (site.diagnostics (config.rules.filter config.isEnabled))
      ((renamed ρ site).diagnostics (config.rules.filter config.isEnabled)) := by
  have each : ∀ r ∈ config.rules, r.IsRenamedAt ρ site := by
    simp only [LintConfig.rules, List.forall_mem_cons]
    exact ⟨Redeclaration.isRenamedAt named, Undefined.isRenamedAt named same,
      ClassPlacement.isRenamedAt site, ControlPlacement.isRenamedAt site,
      ClassBody.isRenamedAt site, IfValue.isRenamedAt site, List.forall_mem_nil _⟩
  have rules : List.Forall₂ (fun r r' => r.IsRenamedAt ρ site ∧ r' = r)
      (config.rules.filter config.isEnabled) (config.rules.filter config.isEnabled) :=
    List.forall₂_same.2 fun r there => ⟨each r (List.mem_of_mem_filter there), rfl⟩
  refine List.rel_flatMap rules ?_
  rintro r _ ⟨found, rfl⟩
  exact found

/-- The reports on a program with other names are those on the program with other names in them, one
    by one and in the same order. -/
theorem lint_renamed {config : LintConfig} {program : Node} (named : program.IsNamed)
    (same : ∀ n ∈ program.descendants, ∀ t ∈ n.form.names,
      config.globals.contains (ρ.image t.lexeme) = config.globals.contains t.lexeme)
    (tree : ScopeTree) :
    List.Forall₂ (Diagnostic.IsRenamed ρ) (lint config program tree)
      (lint config (renamed ρ program) (renamed ρ tree)) := by
  have visits : walk (renamed ρ program) (renamed ρ tree) = renamed ρ (walk program tree) :=
    Walk.node_renamed tree [] ScopeTree.root program
  have entered : (renamed ρ (walk program tree)).filter (·.phase = .enter) =
      ((walk program tree).filter (·.phase = .enter)).map (renamed ρ) := List.filter_map
  have related : List.Forall₂ (fun v w => v ∈ walk program tree ∧ w = renamed ρ v)
      ((walk program tree).filter (·.phase = .enter))
      (((walk program tree).filter (·.phase = .enter)).map (renamed ρ)) :=
    List.forall₂_map_right_iff.2 (List.forall₂_same.2 fun v there =>
      ⟨List.mem_of_mem_filter there, rfl⟩)
  unfold lint
  rw [visits, entered]
  refine forall₂_inSourceOrder (fun _ _ found => congrArg Span.start found.span_eq) ?_
  refine List.rel_flatMap related ?_
  rintro v _ ⟨there, rfl⟩
  have below := Walk.mem_descendants_of_mem there
  have named : (v.site tree).node.IsNamed := named.of_mem_descendants below
  exact Site.diagnostics_renamed named (same v.node below)

/-- Replacing the names in the tokens of a program, no two of them by the same, replaces the names
    in what is made of the tokens and changes nothing else, as long as none of them becomes global
    or ceases to be. The tree has the new names, and reading it meets the same faults; so have the
    scopes, or the declaration at which there are none; a signature is that with the new names in
    it; and the same is reported in the same order, quoting the new names. -/
theorem front_end_renamed (ρ : Renaming) (tokens : List Token) (config : LintConfig)
    (names : ∀ t ∈ tokens, t.kind = .identifier → IsName t.lexeme)
    (globals : ∀ t ∈ tokens, t.kind = .identifier →
      config.globals.contains (ρ.image t.lexeme) = config.globals.contains t.lexeme) :
    (parse (renamed ρ tokens)).program = renamed ρ (parse tokens).program ∧
    (parse (renamed ρ tokens)).diagnostics = (parse tokens).diagnostics ∧
    buildScopes (parse (renamed ρ tokens)).program =
      renamed ρ (buildScopes (parse tokens).program) ∧
    (∀ n ∈ (parse tokens).program.descendants, ∀ name, n.declaredName? = some name →
      ρ.text name.lexeme = ρ.image name.lexeme) ∧
    Signature.all (parse (renamed ρ tokens)).program =
      (Signature.all (parse tokens).program).map (Prod.map id ρ.text) ∧
    ∀ tree tree', buildScopes (parse tokens).program = .ok tree →
      buildScopes (parse (renamed ρ tokens)).program = .ok tree' →
        List.Forall₂ (Diagnostic.IsRenamed ρ) (lint config (parse tokens).program tree)
          (lint config (parse (renamed ρ tokens)).program tree') := by
  have named := isNamed_parse names
  have scopes := buildScopes_renamed (ρ := ρ) named
  obtain ⟨program, faults⟩ := parse_renamed (ρ := ρ) tokens
  rw [program]
  refine ⟨rfl, faults, scopes, ?_, Signature.all_renamed named, ?_⟩
  · intro n below name declares
    exact ρ.text_of_isName (named n below name (Form.mem_names_of_declaredName declares)).2
  · intro tree tree' built built'
    rw [scopes, built] at built'
    cases built'
    refine lint_renamed named (fun n below t there => ?_) tree
    obtain ⟨token, kind⟩ := mem_tokens_of_mem_names below there
    exact globals t token kind

/-- A variable and a function of one name are reported, and so is a name that nothing declares. -/
theorem front_end_renamed_swap :
    let ρ := Renaming.swap (a := "x") (b := "y") (by decide) (by decide)
    let tokens := (lex "var x = y\nfunction x()\n  return x\n").tokens
    (∀ t ∈ tokens, t.kind = .identifier → IsName t.lexeme) ∧
    (∀ t ∈ tokens, t.kind = .identifier →
      LintConfig.standard.globals.contains (ρ.image t.lexeme) =
        LintConfig.standard.globals.contains t.lexeme) ∧
    (parse (renamed ρ tokens)).program = renamed ρ (parse tokens).program ∧
    ∃ tree tree', buildScopes (parse tokens).program = .ok tree ∧
      buildScopes (parse (renamed ρ tokens)).program = .ok tree' ∧
      (lint .standard (parse tokens).program tree).length = 3 ∧
      List.Forall₂ (Diagnostic.IsRenamed ρ) (lint .standard (parse tokens).program tree)
        (lint .standard (parse (renamed ρ tokens)).program tree') := by
  intro ρ tokens
  have names : ∀ t ∈ tokens, t.kind = .identifier → IsName t.lexeme := by decide +kernel
  have globals : ∀ t ∈ tokens, t.kind = .identifier →
      LintConfig.standard.globals.contains (ρ.image t.lexeme) =
        LintConfig.standard.globals.contains t.lexeme := by
    decide +kernel
  obtain ⟨program, -, scopes, -, -, reports⟩ := front_end_renamed ρ tokens .standard names globals
  have built : (buildScopes (parse tokens).program).toOption.any (fun tree =>
      (lint .standard (parse tokens).program tree).length = 3) = true := by
    decide +kernel
  obtain ⟨tree, built, three⟩ := exists_of_any built
  have built' : buildScopes (parse (renamed ρ tokens)).program = .ok (renamed ρ tree) := by
    rw [scopes, built]
    rfl
  exact ⟨names, globals, program, tree, _, built, built', of_decide_eq_true three,
    reports tree _ built built'⟩

end TekLang
