import TekLang.Proofs.Grammar.Conservation
import TekLang.Proofs.Grammar.Fields

/-!
# Trees that conform to the grammar

Every node that is read is made by a production, and so are its constituents. What the later passes
take for granted about trees follows: which constituents are only the details of a declaration, and
on which side of a class a member is kept.
-/

namespace TekLang

/-- A node that a production makes of items whose nodes conform themselves. -/
inductive Conforms : Phrase → Node → Prop
  | mk {phrase items first last n} (made : Production phrase items first last n.span n.form)
    (each : ∀ inner m, Item.part inner m ∈ items → Conforms inner m) : Conforms phrase n

/-- Whether phrases of the sort only say more about a declaration or a use: types, parameters and
    listed names. -/
def Phrase.isDetail : Phrase → Bool
  | type | generic | parameter | importedName => true
  | _ => false

namespace Form

variable {α : Type}

/-- Whether a form is that of a type, a parameter or a listed name. -/
def isDetail : Form α → Bool
  | typeRef .. | parameter .. | generic .. | importedName .. => true
  | _ => false

/-- The types, parameters and listed names among the constituents. -/
def details : Form α → List α
  | variableDecl _ type _ | forEach _ type .. | catchClause _ type _ => type.toList
  | functionDecl _ generics params result _ => generics ++ params ++ result.toList
  | classDecl _ generics bases .. => generics ++ bases
  | importDecl _ _ exposed => exposed
  | call _ generics _ | typeRef _ generics _ => generics
  | new type _ | instanceOf _ type | parameter _ type => [type]
  | generic _ bound => bound.toList
  | constructor params _ => params
  | _ => []

theorem details_eq_parts {form : Form α} (detail : form.isDetail = true) :
    form.details = form.parts := by
  cases form <;> first | rfl | cases detail

/-- A detail stands in a field for details. -/
theorem exists_field_of_mem_details {form : Form α} {m : α} (there : m ∈ form.details) :
    ∃ field : Field, field.phrase.isDetail = true ∧ (field, m) ∈ form.fields := by
  cases form with
  | functionDecl name generics params result body =>
    simp only [details, List.mem_append] at there
    rcases there with (there | there) | there
    · exact ⟨.generic, rfl, by simp [fields, mem_inField, there]⟩
    · exact ⟨.parameter, rfl, by simp [fields, mem_inField, there]⟩
    · exact ⟨.type, rfl, by simp [fields, mem_inField, Option.mem_toList.1 there]⟩
  | classDecl name generics bases =>
    rcases List.mem_append.1 there with there | there
    · exact ⟨.generic, rfl, by simp [fields, mem_inField, there]⟩
    · exact ⟨.type, rfl, by simp [fields, mem_inField, there]⟩
  | importDecl => exact ⟨.importedName, rfl, mem_inField.2 ⟨rfl, there⟩⟩
  | constructor => exact ⟨.parameter, rfl, List.mem_append_left _ (mem_inField.2 ⟨rfl, there⟩)⟩
  | variableDecl | forEach | catchClause | new =>
    exact ⟨.type, rfl, List.mem_append_left _ (mem_inField.2 ⟨rfl, there⟩)⟩
  | typeRef | parameter | generic => exact ⟨.type, rfl, mem_inField.2 ⟨rfl, there⟩⟩
  | call =>
    refine ⟨.type, rfl, List.mem_append_right _ (List.mem_append_left _ ?_)⟩
    exact mem_inField.2 ⟨rfl, there⟩
  | instanceOf => exact ⟨.type, rfl, List.mem_append_right _ (mem_inField.2 ⟨rfl, there⟩)⟩
  | _ => cases there

/-- The members of a class are kept on the sides they belong to. -/
def KeepsSides : Form Node → Prop
  | classDecl _ _ _ constructors statics instances =>
    (∀ m ∈ constructors, ∃ params body, m.form = .constructor params body) ∧
      (∀ m ∈ statics, ∃ value, m.form = .classMember true value) ∧
        ∀ m ∈ instances, ∃ value, m.form = .classMember false value
  | _ => True

end Form

variable {phrase : Phrase} {items : List Item} {n : Node}

namespace Production

variable {first last : Token} {span : Span} {form : Form Node}

/-- The members of a class are constructors and what belongs to one of its sides. -/
theorem of_member (made : Production phrase items first last span form)
    (member : phrase = .member) :
    (∃ params body, form = .constructor params body) ∨
      ∃ isStatic value, form = .classMember isStatic value := by
  cases made with
  | conditional use => cases use <;> cases member
  | constructor => exact .inl ⟨_, _, rfl⟩
  | instanceMember | staticMember => exact .inr ⟨_, _, rfl⟩
  | _ => cases member

theorem isDetail (made : Production phrase items first last span form)
    (detail : phrase.isDetail = true) : form.isDetail = true := by
  cases made with
  | conditional use => cases use <;> cases detail
  | typeRef | generic | parameter | importedName => rfl
  | _ => cases detail

/-- What a form has for a detail was read as one. -/
theorem mem_details (made : Production phrase items first last span form) {m : Node}
    (there : m ∈ form.details) :
    ∃ inner : Phrase, inner.isDetail = true ∧ .part inner m ∈ items := by
  obtain ⟨field, detail, there⟩ := Form.exists_field_of_mem_details there
  rcases made.mem_fields there with there | ⟨_, rfl, _⟩
  · exact ⟨field.phrase, detail, there⟩
  · cases detail

end Production

/-- The nodes among items that have been read conform. -/
theorem Reads.conforms {c c' : Cursor} (reads : Reads items c c') :
    ∀ inner m, .part inner m ∈ items → Conforms inner m := by
  induction reads with
  | nil => exact nofun
  | word _ _ ih =>
    intro inner m there
    rcases List.mem_cons.1 there with same | there
    · cases same
    · exact ih inner m there
  | part _ made _ _ _ _ ih_within _ ih =>
    intro inner m there
    rcases List.mem_cons.1 there with same | there
    · cases same
      exact .mk made ih_within
    · exact ih inner m there

namespace Conforms

theorem isDetail (conforms : Conforms phrase n) (detail : phrase.isDetail = true) :
    n.form.isDetail = true := by
  cases conforms with
  | mk made => exact made.isDetail detail

theorem child (conforms : Conforms phrase n) {m : Node} (below : m ∈ n.children) :
    ∃ inner, Conforms inner m := by
  cases conforms with
  | mk made each =>
    have there := made.nodesOf_perm.mem_iff.2 (Node.mem_children.1 below)
    obtain ⟨item, member, node⟩ := List.mem_filterMap.1 there
    cases item with
    | word => cases node
    | part inner m =>
      cases node
      exact ⟨inner, each _ _ member⟩

theorem of_mem_descendants (conforms : Conforms phrase n) {m : Node} (below : m ∈ n.descendants) :
    ∃ inner, Conforms inner m := by
  induction n using Node.induction_on_children generalizing phrase with
  | step n ih =>
    rw [Node.descendants_eq] at below
    rcases List.mem_cons.1 below with rfl | below
    · exact ⟨phrase, conforms⟩
    · obtain ⟨child, there, below⟩ := List.mem_flatMap.1 below
      obtain ⟨inner, conforms⟩ := conforms.child there
      exact ih child there conforms below

theorem detail (conforms : Conforms phrase n) {m : Node} (there : m ∈ n.form.details) :
    ∃ inner : Phrase, inner.isDetail = true ∧ Conforms inner m := by
  cases conforms with
  | mk made each =>
    obtain ⟨inner, detail, member⟩ := made.mem_details there
    exact ⟨inner, detail, each _ _ member⟩

/-- Below a detail there are only details. -/
theorem isDetail_of_mem_descendants (conforms : Conforms phrase n)
    (detail : phrase.isDetail = true) {m : Node} (below : m ∈ n.descendants) :
    m.form.isDetail = true := by
  induction n using Node.induction_on_children generalizing phrase with
  | step n ih =>
    have own := conforms.isDetail detail
    rw [Node.descendants_eq] at below
    rcases List.mem_cons.1 below with rfl | below
    · exact own
    · obtain ⟨child, there, below⟩ := List.mem_flatMap.1 below
      have part := Node.mem_children.1 there
      rw [← Form.details_eq_parts own] at part
      obtain ⟨inner, detail, conforms⟩ := conforms.detail part
      exact ih child there conforms detail below

theorem of_member (conforms : Conforms .member n) :
    (∃ params body, n.form = .constructor params body) ∨
      ∃ isStatic value, n.form = .classMember isStatic value := by
  cases conforms with
  | mk made => exact made.of_member rfl

/-- The section of a member says what it is. -/
theorem of_section (conforms : Conforms .member n) {part : Parser.Section}
    (belongs : Parser.Section.ofMember n = part) :
    match part with
    | .constructors => ∃ params body, n.form = .constructor params body
    | .statics => ∃ value, n.form = .classMember true value
    | .instances => ∃ value, n.form = .classMember false value := by
  rcases conforms.of_member with ⟨params, body, form⟩ | ⟨isStatic, value, form⟩
  · rw [Parser.Section.ofMember, form] at belongs
    subst belongs
    exact ⟨params, body, form⟩
  · rw [Parser.Section.ofMember, form] at belongs
    cases isStatic <;> subst belongs <;> exact ⟨value, form⟩

theorem keepsSides (conforms : Conforms phrase n) : n.form.KeepsSides := by
  obtain ⟨id, span, form⟩ := n
  cases conforms with
  | mk made each =>
    cases made with
    | @classDecl word name generics angles bases types members block first last kind named
        arguments extended indented =>
      have member (m : Node) (there : m ∈ members) : Conforms .member m := by
        have item := List.mem_append_right types (indented.mem_part there)
        exact each _ _ (.tail _ (.tail _ (List.mem_append_right _ item)))
      have side {m : Node} {part : Parser.Section}
          (there : m ∈ members.filter fun m => decide (Parser.Section.ofMember m = part)) :
          Conforms .member m ∧ Parser.Section.ofMember m = part := by
        obtain ⟨there, belongs⟩ := List.mem_filter.1 there
        exact ⟨member m there, of_decide_eq_true belongs⟩
      refine ⟨?_, ?_, ?_⟩
      all_goals
        intro m there
        obtain ⟨conforms, belongs⟩ := side there
        exact conforms.of_section belongs
    | _ => exact trivial

end Conforms

theorem ReadsProgram.conforms {c : Cursor} {top : TopLevel} (reads : ReadsProgram c top) :
    ∀ n ∈ top.body, Conforms .declaration n := by
  induction reads with
  | done => exact nofun
  | skip _ _ _ ih => exact ih
  | declaration run _ ih =>
    intro n member
    rcases List.mem_cons.1 member with rfl | member
    · have reads := Parser.construct_follows.declaration.reads run
      exact reads.conforms _ _ List.mem_cons_self
    · exact ih n member
  | fault _ _ ih => exact ih

/-- A tree is that of a program whose constituents conform. -/
theorem parse_conforms (tokens : List Token) :
    ∃ id span body, (parse tokens).program = ⟨id, span, .program body⟩ ∧
      ∀ n ∈ body, Conforms .declaration n := by
  obtain ⟨top, span, reads, tree⟩ := parse_reads tokens
  exact ⟨top.nextId, span, top.body, by rw [tree], reads.conforms⟩

/-- Every node of a tree but the program conforms. -/
theorem eq_or_conforms_of_mem_descendants {tokens : List Token} {n : Node}
    (below : n ∈ (parse tokens).program.descendants) :
    n = (parse tokens).program ∨ ∃ phrase, Conforms phrase n := by
  obtain ⟨id, span, body, tree, conforms⟩ := parse_conforms tokens
  rw [Node.descendants_eq] at below
  rcases List.mem_cons.1 below with same | below
  · exact .inl same
  · obtain ⟨child, there, below⟩ := List.mem_flatMap.1 below
    rw [tree] at there
    exact .inr ((conforms child there).of_mem_descendants below)

/-- What may be taken for granted about a tree: its nodes have different numbers, the members
    of classes are on the right sides, and below a detail there are only details. -/
structure Node.IsRegular (program : Node) : Prop where
  distinct : (program.descendants.map (·.id)).Nodup
  sides : ∀ n ∈ program.descendants, n.form.KeepsSides
  details : ∀ n ∈ program.descendants, ∀ m ∈ n.form.details, ∀ k ∈ m.descendants,
    k.form.isDetail = true

theorem Node.IsRegular.of_mem_descendants {program n : Node} (regular : program.IsRegular)
    (below : n ∈ program.descendants) : n.IsRegular := by
  have part := Node.descendants_sublist below
  refine ⟨regular.distinct.sublist (part.map _), ?_, ?_⟩
  · intro m member
    exact regular.sides m (part.subset member)
  · intro m member
    exact regular.details m (part.subset member)

theorem parse_isRegular (tokens : List Token) : (parse tokens).program.IsRegular := by
  obtain ⟨id, span, body, tree, -⟩ := parse_conforms tokens
  refine ⟨parse_ids_nodup tokens, ?_, ?_⟩
  · intro n member
    rcases eq_or_conforms_of_mem_descendants member with rfl | ⟨phrase, conforms⟩
    · rw [tree]
      exact trivial
    · exact conforms.keepsSides
  · intro n member m detail k under
    rcases eq_or_conforms_of_mem_descendants member with rfl | ⟨phrase, conforms⟩
    · rw [tree] at detail
      cases detail
    · obtain ⟨inner, detail, conforms⟩ := conforms.detail detail
      exact conforms.isDetail_of_mem_descendants detail under

end TekLang
