import TekLang.Proofs.Signature.Unambiguous

/-!
# Signatures and overloads

Two functions have the same signature just if they have the same name and, with the places of their
generic parameters for the names, the same types of parameters. So generic parameters may be renamed
without effect, and any other difference in the types makes another overload.
-/

namespace TekLang

/-- Whether a function of a program, or a constructor with the generic parameters of its class, has
    a signature, a name, generic parameters and parameters. -/
inductive Node.Signs (program : Node) : String → String → List Node → List Node → Prop
  | function {n name generics params result body} (below : n ∈ program.descendants)
    (form : n.form = .functionDecl name generics params result body) :
    Signs program (Signature.ofFunction name generics params) name.lexeme generics params
  | constructor {c n name generics bases constructors statics instances params body}
    (below : c ∈ program.descendants)
    (form : c.form = .classDecl name generics bases constructors statics instances)
    (member : n ∈ constructors) (form' : n.form = .constructor params body) :
    Signs program (Signature.ofConstructor generics params) "new" generics params

/-- What a change of the names of generic parameters leaves apart: a name that stands alone is not
    confused with a generic parameter, and no longer path has one in it. -/
def TypeHead.Spares (ρ : String → String) (generics : List String) : TypeHead → Prop
  | path [single] => ∀ g ∈ generics, ρ g = ρ single → g = single
  | path names => ∀ name ∈ names, name ∉ generics
  | place _ => True

/-- Whether names are changed only for generic parameters, and so that the types stay apart. -/
structure RenamesGenerics (ρ : String → String) (generics : List String) (types : List TypeShape) :
    Prop where
  others : ∀ name, name ∉ generics → ρ name = name
  spares : ∀ s ∈ types, s.All (TypeHead.Spares ρ generics)

namespace Signature

section Renamed

variable {ρ : String → String} {generics : List String}

/-- With other names for the generic parameters the same places are put. -/
theorem placed_renamed (others : ∀ name, name ∉ generics → ρ name = name) {head : TypeHead}
    (spares : head.Spares ρ generics) :
    (head.renamed ρ).placed (generics.map ρ) = head.placed generics := by
  match head with
  | .place index => rfl
  | .path [single] =>
    rw [TypeHead.renamed, List.map_cons, List.map_nil, TypeHead.placed, TypeHead.placed,
      idxOf?_map spares]
    cases found : generics.idxOf? single with
    | some index => rfl
    | none =>
      have kept := others single (List.idxOf?_eq_none_iff.1 found)
      rw [kept]
  | .path [] => rfl
  | .path (first :: second :: names) =>
    have kept : (first :: second :: names).map ρ = first :: second :: names :=
      (List.map_congr_left fun name there => others name (spares name there)).trans (List.map_id _)
    rw [TypeHead.renamed, kept]
    rfl

theorem map_placed_renamed {types : List TypeShape} (renames : RenamesGenerics ρ generics types) :
    (types.map (TypeShape.renamed ρ)).map (TypeShape.placed (generics.map ρ)) =
      types.map (TypeShape.placed generics) := by
  rw [List.map_map]
  refine List.map_congr_left fun s there => ?_
  exact TypeShape.mapHeads_mapHeads (renames.spares s there) fun head spares =>
    placed_renamed renames.others spares

end Renamed

theorem text_eq (name : String) (generics : List String) (params : List Node) :
    text name generics params = name ++ ("(" ++ (joined ","
      (((parameterShapes params).map (TypeShape.placed generics)).map TypeShape.text) ++ ")")) := by
  rw [text, parameterTypes_eq, String.append_assoc, String.append_assoc]

/-- A signature tells the name and the types of the parameters. -/
theorem text_eq_iff {name name' : String} (word : name.toList.all isWordPart = true)
    (word' : name'.toList.all isWordPart = true) (generics generics' : List String)
    {params params' : List Node} (written : ∀ s ∈ parameterShapes params, s.IsWritten)
    (written' : ∀ s ∈ parameterShapes params', s.IsWritten) :
    text name generics params = text name' generics' params' ↔ name = name' ∧
      (parameterShapes params).map (TypeShape.placed generics) =
        (parameterShapes params').map (TypeShape.placed generics') := by
  rw [text_eq, text_eq]
  constructor
  · intro same
    have opens (text : String) : Leads (isWordPart · = false) ("(" ++ text) :=
      leads_append (p := (isWordPart · = false)) "(" rfl (by decide) text
    obtain ⟨names, rest⟩ := eq_of_append_of_leads word word' (opens _) (opens _) same
    have named {params : List Node} (written : ∀ s ∈ parameterShapes params, s.IsWritten)
        {generics : List String} :
        ∀ s ∈ (parameterShapes params).map (TypeShape.placed generics), s.IsNamed := by
      intro s there
      obtain ⟨t, member, rfl⟩ := List.mem_map.1 there
      exact (written t member).mapHeads fun head own => own.placed generics
    exact ⟨names, TypeShape.eq_of_joined (named written) (named written') (eq_of_mark_append rest)⟩
  · rintro ⟨rfl, types⟩
    rw [types]

theorem isWritten_of_mem_parameterShapes (source : String) {params : List Node}
    (below : ∀ p ∈ params, p ∈ (parse (lex source).tokens).program.descendants) :
    ∀ s ∈ parameterShapes params, s.IsWritten := by
  intro s there
  have program : (parse (lex source).tokens).program.IsNamed :=
    isNamed_parse fun t there kind => isName_of_mem_lex source there kind
  obtain ⟨p, member, is⟩ := List.mem_filterMap.1 there
  have named := program.of_mem_descendants (below p member)
  split at is
  · next name type form =>
    cases is
    have part : type ∈ p.form.parts := by
      rw [form]
      exact List.mem_singleton_self type
    have conforms : Conforms .type type := by
      rcases eq_or_conforms_of_mem_descendants (below p member) with root | ⟨phrase, conforms⟩
      · obtain ⟨id, span, body, tree, -⟩ := parse_conforms (lex source).tokens
        rw [root, tree] at form
        cases form
      · exact conforms.of_parameter form
    exact conforms.isWritten_typeShape (named.part part)
  · cases is

/-- What has a signature has that of its name and its parameters. -/
theorem of_signs {source signature name : String} {generics params : List Node}
    (signs : (parse (lex source).tokens).program.Signs signature name generics params) :
    signature = text name (genericNames generics) params ∧ name.toList.all isWordPart = true ∧
      ∀ s ∈ parameterShapes params, s.IsWritten := by
  cases signs with
  | @function n name generics params result body below form =>
    have part : name ∈ n.form.names := by
      rw [form]
      exact List.mem_singleton_self name
    obtain ⟨token, kind⟩ := mem_tokens_of_mem_names below part
    refine ⟨rfl, TypeHead.IsName.isWordPart (isName_of_mem_lex source token kind), ?_⟩
    refine isWritten_of_mem_parameterShapes source fun p member => ?_
    have child : p ∈ n.children := Node.mem_children.2 (by simp [form, Form.parts, member])
    exact (Node.descendants_sublist below).subset
      (Node.mem_descendants_of_child child p.mem_descendants_self)
  | @constructor c n name generics bases constructors statics instances params body below form
      member form' =>
    refine ⟨rfl, by decide, ?_⟩
    refine isWritten_of_mem_parameterShapes source fun p there => ?_
    have child : p ∈ n.children := Node.mem_children.2 (by simp [form', Form.parts, there])
    have child' : n ∈ c.children := Node.mem_children.2 (by simp [form, Form.parts, member])
    exact (Node.descendants_sublist below).subset (Node.mem_descendants_of_child child'
      (Node.mem_descendants_of_child child p.mem_descendants_self))

end Signature

/-- Two functions or constructors have one signature just if they have one name and, with the places
    of their generic parameters for the names, one list of parameter types. So where their generic
    parameters have the same names the types have to be the same, and with other names for generic
    parameters that only stand alone the signature is what it was. -/
theorem signature_eq_iff {source source' signature signature' name name' : String}
    {generics generics' params params' : List Node}
    (signs : (parse (lex source).tokens).program.Signs signature name generics params)
    (signs' : (parse (lex source').tokens).program.Signs signature' name' generics' params') :
    (signature = signature' ↔ name = name' ∧
      (Signature.parameterShapes params).map (TypeShape.placed (Signature.genericNames generics)) =
        (Signature.parameterShapes params').map
          (TypeShape.placed (Signature.genericNames generics'))) ∧
    (Signature.genericNames generics = Signature.genericNames generics' →
      (signature = signature' ↔ name = name' ∧
        Signature.parameterShapes params = Signature.parameterShapes params')) ∧
    ∀ ρ, RenamesGenerics ρ (Signature.genericNames generics) (Signature.parameterShapes params) →
      Signature.genericNames generics' = (Signature.genericNames generics).map ρ →
      Signature.parameterShapes params' =
        (Signature.parameterShapes params).map (TypeShape.renamed ρ) →
      name = name' → signature = signature' := by
  obtain ⟨rfl, word, written⟩ := Signature.of_signs signs
  obtain ⟨rfl, word', written'⟩ := Signature.of_signs signs'
  have agree := Signature.text_eq_iff word word' (Signature.genericNames generics)
    (Signature.genericNames generics') written written'
  refine ⟨agree, ?_, ?_⟩
  · intro same
    rw [agree, ← same]
    refine and_congr_right fun _ => ⟨fun types => ?_, fun types => by rw [types]⟩
    refine TypeShape.eq_of_map_eq (fun s there t there' placed => ?_) types
    exact TypeShape.eq_of_mapHeads (written s there) (written' t there')
      (fun _ _ own own' => TypeHead.eq_of_placed own own') placed
  · rintro ρ renames names types rfl
    rw [agree, names, types, Signature.map_placed_renamed renames]
    exact ⟨rfl, rfl⟩

theorem exists_signs_of_any {program : Node} {own : String} {names : List String}
    {types : List TypeShape} (test : program.descendants.any (fun n =>
      match n.form with
      | .functionDecl name generics params _ _ => decide (name.lexeme = own ∧
          Signature.genericNames generics = names ∧ Signature.parameterShapes params = types)
      | _ => false) = true) :
    ∃ signature generics params, program.Signs signature own generics params ∧
      Signature.genericNames generics = names ∧ Signature.parameterShapes params = types := by
  obtain ⟨n, below, test⟩ := List.any_eq_true.1 test
  split at test
  · next name generics params result body form =>
    obtain ⟨rfl, parameters, shapes⟩ := of_decide_eq_true test
    exact ⟨_, generics, params, .function below form, parameters, shapes⟩
  · cases test

/-- Another name for a generic parameter, also where it is an argument, makes no other overload. -/
theorem signature_eq_iff_renamed :
    let first := (parse (lex "function f<T>(a: T, b: m.A<T>[])\n").tokens).program
    let second := (parse (lex "function f<U>(a: U, b: m.A<U>[])\n").tokens).program
    ∃ signature signature' generics generics' params params',
      first.Signs signature "f" generics params ∧ second.Signs signature' "f" generics' params' ∧
        Signature.parameterShapes params ≠ Signature.parameterShapes params' ∧
        signature = signature' := by
  intro first second
  let types (name : String) : List TypeShape :=
    [⟨.path [name], [], 0⟩, ⟨.path ["m", "A"], [⟨.path [name], [], 0⟩], 1⟩]
  obtain ⟨signature, generics, params, signs, names, shapes⟩ :
      ∃ signature generics params, first.Signs signature "f" generics params ∧
        Signature.genericNames generics = ["T"] ∧ Signature.parameterShapes params = types "T" :=
    exists_signs_of_any (by decide +kernel)
  obtain ⟨signature', generics', params', signs', names', shapes'⟩ :
      ∃ signature generics params, second.Signs signature "f" generics params ∧
        Signature.genericNames generics = ["U"] ∧ Signature.parameterShapes params = types "U" :=
    exists_signs_of_any (by decide +kernel)
  have alone : TypeShape.All (TypeHead.Spares (fun name => if name = "T" then "U" else name) ["T"])
      ⟨.path ["T"], [], 0⟩ :=
    .mk (fun g there _ => List.mem_singleton.1 there) (List.forall_mem_nil _)
  have renames : RenamesGenerics (fun name => if name = "T" then "U" else name) ["T"]
      (types "T") := by
    refine ⟨fun name other => if_neg fun same => other (List.mem_singleton.2 same), ?_⟩
    refine List.forall_mem_cons.2 ⟨alone, List.forall_mem_singleton.2 (.mk ?_ ?_)⟩
    · change ∀ name ∈ ["m", "A"], name ∉ ["T"]
      decide
    · exact List.forall_mem_singleton.2 alone
  refine ⟨signature, signature', generics, generics', params, params', signs, signs', ?_, ?_⟩
  · rw [shapes, shapes']
    decide
  · refine (signature_eq_iff signs signs').2.2 _ (names ▸ shapes ▸ renames) ?_ ?_ rfl
    · rw [names, names']
      rfl
    · rw [shapes, shapes']
      rfl

end TekLang
