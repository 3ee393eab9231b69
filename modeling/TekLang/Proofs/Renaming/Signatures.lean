import TekLang.Proofs.Grammar.Arrangement
import TekLang.Proofs.Renaming.Trees
import TekLang.Signature

/-!
# Renaming in signatures

Nothing in a signature but the names of functions and types is affected by a renaming: the marks
that part them are in no word, and neither `new` nor the places of generic parameters are names. So
the signature of a function with other names is the signature with the names replaced, as a text.
-/

namespace TekLang

/-- The tokens of a form that are names. -/
def Form.names {α : Type} : Form α → List Token
  | variableDecl name .. | functionDecl name .. | classDecl name .. | forEach name ..
  | parameter name _ | generic name _ | catchClause name .. | identifier name => [name]
  | importDecl path rename _ => path ++ rename.toList
  | importedName name rename => name :: rename.toList
  | typeRef path .. => path
  | _ => []

/-- All names in a tree are such as texts have. -/
def Node.IsNamed (n : Node) : Prop :=
  ∀ m ∈ n.descendants, ∀ t ∈ m.form.names, t.kind = .identifier ∧ IsName t.lexeme

section Named

/-- What stands in the place of a name was read as one. -/
theorem Production.names {phrase : Phrase} {items : List Item} {first last : Token} {span : Span}
    {form : Form Node} (made : Production phrase items first last span form) :
    ∀ t ∈ form.names, t.kind = .identifier := by
  cases made with
  | generic named | parameter named | functionDecl _ _ named | classDecl _ named
  | forEach _ named | catchClause _ named | variableDecl _ named | identifier named =>
    exact List.forall_mem_singleton.2 named
  | @importedName _ rename _ _ _ named renamed =>
    refine List.forall_mem_cons.2 ⟨named, ?_⟩
    intro t there
    rw [Option.mem_toList.1 there] at renamed
    exact kind_of_optionally renamed
  | @importDecl _ first others _ rename _ _ _ _ _ _ named path renamed =>
    intro t there
    rcases List.mem_append.1 there with there | there
    · rcases List.mem_cons.1 there with rfl | there
      · exact named
      · exact kind_of_mem_each path t there
    · rw [Option.mem_toList.1 there] at renamed
      exact kind_of_optionally renamed
  | typeRef named path => exact List.forall_mem_cons.2 ⟨named, kind_of_mem_each path⟩
  | _ => exact List.forall_mem_nil _

theorem Form.names_subset_tokens {α : Type} (form : Form α) : form.names ⊆ form.tokens := by
  cases form <;> first | exact List.Subset.refl _ | exact List.nil_subset _

theorem Form.mem_names_of_declaredName {α : Type} {form : Form α} {name : Token}
    (declares : form.declaredName? = some name) : name ∈ form.names := by
  cases form with
  | importDecl path rename =>
    cases rename with
    | none => exact List.mem_append_left _ (List.mem_of_getLast? declares)
    | some rename =>
      cases declares
      exact List.mem_append_right _ List.mem_cons_self
  | importedName own rename =>
    cases rename <;> cases declares <;> simp [names]
  | _ =>
    cases declares
    try exact List.mem_cons_self

/-- The names in a tree are those of the tokens that it was read from. -/
theorem mem_tokens_of_mem_names {tokens : List Token} {n : Node}
    (below : n ∈ (parse tokens).program.descendants) {t : Token} (there : t ∈ n.form.names) :
    t ∈ tokens ∧ t.kind = .identifier := by
  have token : t ∈ (parse tokens).program.tokens :=
    List.mem_flatMap.2 ⟨n, below, n.form.names_subset_tokens there⟩
  refine ⟨mem_of_mem_tokens_parse token, ?_⟩
  rcases eq_or_conforms_of_mem_descendants below with rfl | ⟨phrase, conforms⟩
  · obtain ⟨id, span, body, tree, -⟩ := parse_conforms tokens
    rw [tree] at there
    cases there
  · cases conforms with
    | mk made => exact made.names t there

theorem isNamed_parse {tokens : List Token}
    (names : ∀ t ∈ tokens, t.kind = .identifier → IsName t.lexeme) :
    (parse tokens).program.IsNamed := by
  intro n below t there
  obtain ⟨token, kind⟩ := mem_tokens_of_mem_names below there
  exact ⟨kind, names t token kind⟩

namespace Node.IsNamed

variable {n m : Node}

theorem below (named : n.IsNamed) (there : m ∈ n.children) : m.IsNamed :=
  fun k under => named k (Node.mem_descendants_of_child there under)

theorem of_mem_descendants (named : n.IsNamed) (there : m ∈ n.descendants) : m.IsNamed :=
  fun k under => named k ((descendants_sublist there).subset under)

theorem own (named : n.IsNamed) {t : Token} (there : t ∈ n.form.names) :
    t.kind = .identifier ∧ IsName t.lexeme := named n n.mem_descendants_self t there

theorem part (named : n.IsNamed) (there : m ∈ n.form.parts) : m.IsNamed :=
  named.below (Node.mem_children.2 there)

end Node.IsNamed

end Named

variable {ρ : Renaming}

/-- A name with a token of its own is replaced as a text. -/
theorem Token.lexeme_renamed_eq_text {t : Token} (name : t.kind = .identifier ∧ IsName t.lexeme) :
    (renamed ρ t).lexeme = ρ.text t.lexeme := by
  rw [Token.lexeme_renamed name.1, ρ.text_of_isName name.2]

namespace Renaming

variable (ρ) {s t : String}

theorem text_empty : ρ.text "" = "" :=
  ρ.text_of_not_isName (List.forall_mem_nil _) Bool.false_ne_true

theorem beginsOutside_mark (mark : String) {c : Char} (one : mark.toList = [c])
    (other : isWordPart c = false) (s : String) : BeginsOutside (mark ++ s) := by
  unfold BeginsOutside
  rw [String.toList_append, one]
  rintro d ⟨⟩
  exact other

theorem beginsOutside_empty : BeginsOutside "" := nofun

/-- Texts with a mark between them. -/
theorem text_between (mark : String) {c : Char} (one : mark.toList = [c])
    (other : isWordPart c = false) (s t : String) :
    ρ.text (s ++ mark ++ t) = ρ.text s ++ mark ++ ρ.text t := by
  rw [String.append_assoc, ρ.text_append s (beginsOutside_mark mark one other t),
    ρ.text_mark mark one other, String.append_assoc]

theorem text_joined (mark : String) {c : Char} (one : mark.toList = [c])
    (other : isWordPart c = false) (texts : List String) :
    ρ.text (joined mark texts) = joined mark (texts.map ρ.text) := by
  induction texts with
  | nil => exact ρ.text_empty
  | cons s texts ih =>
    cases texts with
    | nil => rfl
    | cons t texts =>
      rw [joined, ρ.text_between mark one other, ih]
      rfl

/-- The place of a generic parameter is no name. -/
theorem text_place (place : Nat) : ρ.text ("$" ++ toString place) = "$" ++ toString place := by
  have digits : (toString place).toList = Nat.toDigits 10 place := String.toList_ofList
  have digit {c : Char} (there : c ∈ (toString place).toList) : c.isDigit = true := by
    rw [digits] at there
    exact Nat.isDigit_of_mem_toDigits (by decide) (by decide) there
  rw [ρ.text_mark "$" (c := '$') rfl rfl, ρ.text_of_not_isName]
  · intro c there
    rw [isWordPart, digit there, Bool.or_true]
  · intro name
    obtain ⟨first, rest, spelt, start, -⟩ := (isName_iff.1 name).1
    have none := isDigit_of_isWordStart start
    rw [digit (spelt ▸ List.mem_cons_self)] at none
    cases none

end Renaming

namespace Signature

theorem text_brackets (depth : Nat) : ρ.text (brackets depth) = brackets depth := by
  induction depth with
  | zero => exact ρ.text_empty
  | succ depth ih =>
    have parted : brackets (depth + 1) = "[" ++ ("]" ++ brackets depth) := by
      rw [← String.append_assoc]
      rfl
    rw [parted, ρ.text_mark "[" (c := '[') rfl rfl, ρ.text_mark "]" (c := ']') rfl rfl, ih]

theorem beginsOutside_brackets (depth : Nat) : Renaming.BeginsOutside (brackets depth) := by
  cases depth with
  | zero => exact Renaming.beginsOutside_empty
  | succ depth =>
    unfold Renaming.BeginsOutside
    rw [brackets, String.toList_append]
    rintro c ⟨⟩
    rfl

theorem text_argumentsText (texts : List String) :
    ρ.text (argumentsText texts) = argumentsText (texts.map ρ.text) := by
  cases texts with
  | nil => exact ρ.text_empty
  | cons t texts =>
    have closed := ρ.text_between ">" (c := '>') rfl rfl ("<" ++ joined "," (t :: texts)) ""
    rw [String.append_empty, ρ.text_mark "<" (c := '<') rfl rfl,
      ρ.text_joined "," (c := ',') rfl rfl, ρ.text_empty, String.append_empty] at closed
    exact closed

theorem beginsOutside_argumentsText (texts : List String) :
    Renaming.BeginsOutside (argumentsText texts) := by
  cases texts with
  | nil => exact Renaming.beginsOutside_empty
  | cons t texts =>
    change Renaming.BeginsOutside ("<" ++ joined "," (t :: texts) ++ ">")
    rw [String.append_assoc]
    exact Renaming.beginsOutside_mark "<" (c := '<') rfl rfl _

/-- What is not confused with others by a replacement is found at the same place as before. -/
theorem idxOf?_map {f : String → String} {generics : List String} {x : String}
    (apart : ∀ g ∈ generics, f g = f x → g = x) :
    (generics.map f).idxOf? (f x) = generics.idxOf? x := by
  induction generics with
  | nil => rfl
  | cons g generics ih =>
    obtain ⟨first, others⟩ := List.forall_mem_cons.1 apart
    have same : (f g == f x) = (g == x) := by
      by_cases equal : g = x
      · rw [equal, beq_self_eq_true, beq_self_eq_true]
      · rw [beq_false_of_ne equal, beq_false_of_ne fun image => equal (first image)]
    rw [List.map_cons, List.idxOf?_cons, List.idxOf?_cons, same, ih others]

/-- A name is found at the same place among other names as before. -/
theorem idxOf?_image {generics : List String} (names : ∀ g ∈ generics, IsName g) {x : String}
    (name : IsName x) : (generics.map ρ.image).idxOf? (ρ.image x) = generics.idxOf? x :=
  idxOf?_map fun g there image => ρ.injective (names g there) name image

section Types

variable {generics : List String} (names : ∀ g ∈ generics, IsName g)
include names

theorem pathText_renamed {path : List Token}
    (named : ∀ t ∈ path, t.kind = .identifier ∧ IsName t.lexeme) :
    pathText (generics.map ρ.image) (renamed ρ path) = ρ.text (pathText generics path) := by
  have lexemes : (renamed ρ path).map (·.lexeme) = (path.map (·.lexeme)).map ρ.text := by
    change (path.map (renamed ρ)).map _ = _
    rw [List.map_map, List.map_map]
    exact List.map_congr_left fun t there => Token.lexeme_renamed_eq_text (named t there)
  have joins : joined "." ((renamed ρ path).map (·.lexeme)) =
      ρ.text (joined "." (path.map (·.lexeme))) := by
    rw [lexemes, ρ.text_joined "." (c := '.') rfl rfl]
  cases path with
  | nil => exact joins
  | cons single path =>
    cases path with
    | cons => exact joins
    | nil =>
      have own := named single List.mem_cons_self
      have place : (generics.map ρ.image).idxOf? (renamed ρ single).lexeme =
          generics.idxOf? single.lexeme := by
        rw [Token.lexeme_renamed own.1, idxOf?_image names own.2]
      change pathText _ [renamed ρ single] = _
      rw [pathText, pathText, place, Token.lexeme_renamed own.1]
      cases generics.idxOf? single.lexeme with
      | none => exact (ρ.text_of_isName own.2).symm
      | some place => exact (ρ.text_place place).symm

theorem typeText_renamed {n : Node} (named : n.IsNamed) :
    typeText (generics.map ρ.image) (renamed ρ n) = ρ.text (typeText generics n) := by
  induction n using Node.induction_on_children with
  | step n ih =>
    obtain ⟨id, span, form⟩ := n
    rw [Node.renamed_mk]
    cases form with
    | typeRef path arguments depth =>
      have texts : typeTexts (generics.map ρ.image) (renamed ρ arguments) =
          (typeTexts generics arguments).map ρ.text := by
        rw [typeTexts_eq, typeTexts_eq]
        change (arguments.map (renamed ρ)).map _ = _
        rw [List.map_map, List.map_map]
        refine List.map_congr_left fun m there => ?_
        have part : m ∈ (⟨id, span, .typeRef path arguments depth⟩ : Node).form.parts := there
        exact ih m (Node.mem_children.2 part) (named.part part)
      change pathText _ (renamed ρ path) ++ argumentsText (typeTexts _ (renamed ρ arguments)) ++
        brackets depth = ρ.text (pathText generics path ++
          argumentsText (typeTexts generics arguments) ++ brackets depth)
      have path := pathText_renamed (ρ := ρ) names fun t (there : t ∈ path) => named.own there
      rw [path, texts, ← text_argumentsText,
        ρ.text_append _ (beginsOutside_brackets depth), text_brackets,
        ρ.text_append _ (beginsOutside_argumentsText _)]
    | _ => exact ρ.text_empty.symm

theorem parameterTypes_renamed {params : List Node} (named : ∀ p ∈ params, p.IsNamed) :
    parameterTypes (generics.map ρ.image) (renamed ρ params) =
      (parameterTypes generics params).map ρ.text := by
  induction params with
  | nil => rfl
  | cons p params ih =>
    obtain ⟨first, others⟩ := List.forall_mem_cons.1 named
    have ih := ih others
    obtain ⟨id, span, form⟩ := p
    change parameterTypes _ (renamed ρ (⟨id, span, form⟩ : Node) :: renamed ρ params) = _
    rw [Node.renamed_mk]
    cases form with
    | parameter name type =>
      have type := typeText_renamed (ρ := ρ) names (first.part List.mem_cons_self)
      exact congrArg₂ List.cons type ih
    | _ => exact ih

theorem text_renamed {name name' : String} (same : name' = ρ.text name) {params : List Node}
    (named : ∀ p ∈ params, p.IsNamed) :
    text name' (generics.map ρ.image) (renamed ρ params) = ρ.text (text name generics params) := by
  have closed := ρ.text_between ")" (c := ')') rfl rfl
    (name ++ "(" ++ joined "," (parameterTypes generics params)) ""
  rw [String.append_empty, ρ.text_between "(" (c := '(') rfl rfl,
    ρ.text_joined "," (c := ',') rfl rfl, ρ.text_empty, String.append_empty, ← same,
    ← parameterTypes_renamed names named] at closed
  exact closed.symm

end Types

theorem isName_of_mem_genericNames {generics : List Node} (named : ∀ g ∈ generics, g.IsNamed) :
    ∀ name ∈ genericNames generics, IsName name := by
  intro name there
  obtain ⟨⟨id, span, form⟩, member, listed⟩ := List.mem_filterMap.1 there
  cases form with
  | generic own =>
    cases listed
    exact ((named _ member).own List.mem_cons_self).2
  | _ => cases listed

theorem genericNames_renamed {generics : List Node} (named : ∀ g ∈ generics, g.IsNamed) :
    genericNames (renamed ρ generics) = (genericNames generics).map ρ.image := by
  induction generics with
  | nil => rfl
  | cons g generics ih =>
    obtain ⟨first, others⟩ := List.forall_mem_cons.1 named
    have ih := ih others
    obtain ⟨id, span, form⟩ := g
    change genericNames (renamed ρ (⟨id, span, form⟩ : Node) :: renamed ρ generics) = _
    rw [Node.renamed_mk]
    cases form with
    | generic own =>
      have kind := (first.own List.mem_cons_self).1
      exact congrArg₂ List.cons (Token.lexeme_renamed kind) ih
    | _ => exact ih

section Signatures

variable {generics params : List Node} (generic : ∀ g ∈ generics, g.IsNamed)
  (parameter : ∀ p ∈ params, p.IsNamed)
include generic parameter

/-- With other names a function has the signature with other names. -/
theorem ofFunction_renamed {name : Token} (named : name.kind = .identifier ∧ IsName name.lexeme) :
    ofFunction (renamed ρ name) (renamed ρ generics) (renamed ρ params) =
      ρ.text (ofFunction name generics params) := by
  rw [ofFunction, genericNames_renamed generic]
  exact text_renamed (isName_of_mem_genericNames generic) (Token.lexeme_renamed_eq_text named)
    parameter

/-- And so has a constructor, for `new` is no name. -/
theorem ofConstructor_renamed :
    ofConstructor (renamed ρ generics) (renamed ρ params) =
      ρ.text (ofConstructor generics params) := by
  have parts : "new".toList.all isWordPart = true := by decide
  have kept : ρ.text "new" = "new" := ρ.text_of_not_isName (List.all_eq_true.1 parts) (by decide)
  rw [ofConstructor, genericNames_renamed generic]
  exact text_renamed (isName_of_mem_genericNames generic) kept.symm parameter

end Signatures

theorem constructorGenerics_renamed (n : Node) :
    constructorGenerics (renamed ρ n) = renamed ρ (constructorGenerics n) := by
  obtain ⟨id, span, form⟩ := n
  rw [Node.renamed_mk]
  cases form with
  | classDecl name generics bases constructors statics instances =>
    refine List.map_map.trans (Eq.trans (List.map_congr_left fun c _ => ?_) List.map_map.symm)
    exact congrArg (·, _) c.id_renamed
  | _ => rfl

theorem ofForm?_renamed {classGenerics : List Node} (generic : ∀ g ∈ classGenerics, g.IsNamed)
    {n : Node} (named : n.IsNamed) :
    ofForm? (renamed ρ classGenerics) (renamed ρ n).form =
      (ofForm? classGenerics n.form).map ρ.text := by
  rw [n.form_renamed]
  have part {m : Node} (there : m ∈ n.form.parts) : m.IsNamed := named.part there
  cases form : n.form with
  | functionDecl name generics params =>
    rw [form] at part
    have own : name.kind = .identifier ∧ IsName name.lexeme := by
      exact named.own (by simp [form, Form.names])
    exact congrArg some (ofFunction_renamed (fun g there => part (by simp [Form.parts, there]))
      (fun p there => part (by simp [Form.parts, there])) own)
  | constructor params =>
    rw [form] at part
    exact congrArg some (ofConstructor_renamed generic fun p there =>
      part (List.mem_append_left _ there))
  | _ => rfl

section Trees

variable {root : Node}

/-- The generic parameters that go with a constructor stand in the tree. -/
theorem isNamed_of_constructorGenerics (named : root.IsNamed) (id : NodeId) :
    ∀ g ∈ ((root.descendants.flatMap constructorGenerics).lookup id).getD [], g.IsNamed := by
  cases is : (root.descendants.flatMap constructorGenerics).lookup id with
  | none => exact List.forall_mem_nil _
  | some generics =>
    obtain ⟨before, after, parted, -⟩ := List.lookup_eq_some_iff.1 is
    have there : (id, generics) ∈ root.descendants.flatMap constructorGenerics :=
      parted ▸ List.mem_append_right _ List.mem_cons_self
    obtain ⟨m, below, there⟩ := List.mem_flatMap.1 there
    have named := named.of_mem_descendants below
    unfold constructorGenerics at there
    split at there
    · next form =>
      obtain ⟨c, -, same⟩ := List.mem_map.1 there
      cases same
      intro g member
      have member : g ∈ generics := member
      exact named.part (by simp [form, Form.parts, member])
    · cases there

theorem lookup_constructorGenerics_renamed (id : NodeId) :
    (((renamed ρ root).descendants.flatMap constructorGenerics).lookup id).getD [] =
      renamed ρ (((root.descendants.flatMap constructorGenerics).lookup id).getD []) := by
  have owned : (renamed ρ root).descendants.flatMap constructorGenerics =
      renamed ρ (root.descendants.flatMap constructorGenerics) := by
    rw [root.descendants_renamed]
    refine (List.flatMap_map _ _ _).trans (Eq.trans ?_ List.map_flatMap.symm)
    exact List.flatMap_congr fun n _ => constructorGenerics_renamed n
  have goes : (renamed ρ (root.descendants.flatMap constructorGenerics)).lookup id =
      ((root.descendants.flatMap constructorGenerics).lookup id).map (renamed ρ) :=
    lookup_map_of_injective Function.injective_id (renamed ρ) _ id
  rw [owned, goes]
  cases (root.descendants.flatMap constructorGenerics).lookup id <;> rfl

/-- With other names the functions and constructors of a tree have their signatures with other
    names. -/
theorem all_renamed (named : root.IsNamed) :
    all (renamed ρ root) = (all root).map (Prod.map id ρ.text) := by
  unfold all
  extract_lets nodes' owned' nodes owned
  have same : nodes' = renamed ρ nodes := root.descendants_renamed
  rw [same, List.map_filterMap]
  refine List.filterMap_map.trans (List.filterMap_congr fun n there => ?_)
  rw [Function.comp_apply, n.id_renamed, lookup_constructorGenerics_renamed,
    ofForm?_renamed (isNamed_of_constructorGenerics named n.id) (named.of_mem_descendants there),
    Option.map_map, Option.map_map]
  rfl

end Trees

end Signature

end TekLang
