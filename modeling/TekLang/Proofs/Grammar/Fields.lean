import TekLang.Proofs.Grammar.Production

/-!
# Fields

Which sort of field each constituent of a node stands in: what is a type, what an expression, what a
statement in a body. A production fills every field with a phrase of the sort that belongs there.
-/

namespace TekLang

/-- The sorts of fields that nodes stand in. The body of an else is a sort of its own, for another
    if may stand in its place. -/
inductive Field
  | type | generic | parameter | importedName | expression | statement
  | branch (use : Use)
  | constructor | member | switchCase | handler
  | otherwise (use : Use)
deriving DecidableEq, Inhabited, Repr

/-- The sort of phrase that a field is filled with. -/
def Field.phrase : Field → Phrase
  | type => .type
  | generic => .generic
  | parameter => .parameter
  | importedName => .importedName
  | expression => .expression
  | statement | branch _ => .declaration
  | constructor | member => .member
  | switchCase => .switchCase
  | handler => .handler
  | otherwise _ => .otherwise

namespace Form

variable {α : Type}

/-- Nodes that all stand in one field. -/
def inField (field : Field) (nodes : List α) : List (Field × α) := nodes.map (field, ·)

theorem mem_inField {field field' : Field} {nodes : List α} {n : α} :
    (field, n) ∈ inField field' nodes ↔ field = field' ∧ n ∈ nodes := by
  unfold inField
  rw [List.mem_map]
  constructor
  · rintro ⟨_, member, same⟩
    cases same
    exact ⟨rfl, member⟩
  · rintro ⟨rfl, member⟩
    exact ⟨n, member, rfl⟩

@[simp] theorem map_snd_inField (field : Field) (nodes : List α) :
    (inField field nodes).map (·.2) = nodes := by
  unfold inField
  rw [List.map_map]
  exact List.map_id _

/-- The constituents of a form with the fields that they stand in. -/
def fields : Form α → List (Field × α)
  | variableDecl _ type value => inField .type type.toList ++ inField .expression value.toList
  | functionDecl _ generics params result body =>
    inField .generic generics ++ inField .parameter params ++ inField .type result.toList ++
      inField .statement (body.getD [])
  | classDecl _ generics bases constructors statics instances =>
    inField .generic generics ++ inField .type bases ++ (inField .constructor constructors ++
      inField .member statics ++ inField .member instances)
  | importDecl _ _ exposed => inField .importedName exposed
  | assignment first second | binary first _ second | index first second =>
    inField .expression [first, second]
  | wrapped value | async value | unary _ value | member value _ | throwStmt value
  | yieldStmt value | expressionStmt value => inField .expression [value]
  | call callee generics args =>
    inField .expression [callee] ++ (inField .type generics ++ inField .expression args)
  | new type args => inField .type [type] ++ inField .expression args
  | instanceOf value type => inField .expression [value] ++ inField .type [type]
  | array elements => inField .expression elements
  | conditional use condition body otherwise =>
    inField .expression [condition] ++ (inField .statement body ++
      inField (.otherwise use) otherwise.toList)
  | elseBranch use body => inField (.branch use) body
  | switch subject cases => inField .expression [subject] ++ inField .switchCase cases
  | forEach _ type iterable body =>
    inField .type type.toList ++ (inField .expression [iterable] ++ inField .statement body)
  | repeatTimes header body | whileLoop header body =>
    inField .expression [header] ++ inField .statement body
  | tryCatch body handler => inField .statement body ++ inField .handler [handler]
  | returnStmt value => inField .expression value.toList
  | program body => inField .statement body
  | typeRef _ generics _ => inField .type generics
  | parameter _ type => inField .type [type]
  | generic _ bound => inField .type bound.toList
  | classMember _ value => inField .statement [value]
  | constructor params body => inField .parameter params ++ inField .statement body
  | switchCase conditions body => inField .expression conditions ++ inField .statement body
  | catchClause _ type body => inField .type type.toList ++ inField .statement body
  | identifier _ | this | super | literal .. | jumpStmt _ | importedName .. => []

/-- Every constituent stands in one field. -/
theorem map_snd_fields (form : Form α) : form.fields.map (·.2) = form.parts := by
  cases form <;> simp [fields, parts]

end Form

/-- The children of a node are the nodes in its fields. -/
theorem Node.mem_children_iff_field {n m : Node} :
    m ∈ n.children ↔ ∃ field, (field, m) ∈ n.form.fields := by
  rw [Node.mem_children, ← Form.map_snd_fields]
  simp

variable {phrase : Phrase} {mark close : TokenKind} {items : List Item} {n : Node}

theorem Optionally.mem_part {n? : Option Node} (optional : Optionally mark (IsPart phrase) n? items)
    (there : n ∈ n?.toList) : .part phrase n ∈ items := by
  cases optional with
  | none => cases there
  | some marked thing =>
    obtain rfl := List.mem_singleton.1 there
    cases thing
    exact .tail _ List.mem_cons_self

theorem EachAfter.mem_part {ns : List Node} (each : EachAfter mark (IsPart phrase) ns items)
    (there : n ∈ ns) : .part phrase n ∈ items := by
  induction each with
  | nil => cases there
  | cons marked first more ih =>
    rcases List.mem_cons.1 there with rfl | there
    · cases first
      exact .tail _ List.mem_cons_self
    · exact .tail _ (List.mem_append_right _ (ih there))

theorem Listed.mem_part {ns : List Node} (listed : Listed phrase close ns items) (there : n ∈ ns) :
    .part phrase n ∈ items := by
  induction listed with
  | close => cases there
  | last closes =>
    obtain rfl := List.mem_singleton.1 there
    exact List.mem_cons_self
  | cons separates others ih =>
    rcases List.mem_cons.1 there with rfl | there
    · exact List.mem_cons_self
    · exact .tail _ (.tail _ (ih there))

theorem ListAfter.mem_part {Means : List Node → List Item → Prop} {ns : List Node}
    (list : ListAfter mark Means ns items) (there : n ∈ ns)
    (all : ∀ items, Means ns items → .part phrase n ∈ items) : .part phrase n ∈ items := by
  cases list with
  | none => cases there
  | some marked list => exact .tail _ (all _ list)

theorem InAngles.mem_part {ns : List Node} (angles : InAngles phrase ns items) (there : n ∈ ns) :
    .part phrase n ∈ items :=
  ListAfter.mem_part angles there fun _ listed => listed.mem_part there

theorem Bases.mem_part {ns : List Node} (bases : Bases ns items) (there : n ∈ ns) :
    .part .type n ∈ items := by
  cases bases with
  | mk more =>
    rcases List.mem_cons.1 there with rfl | there
    · exact List.mem_cons_self
    · exact .tail _ (more.mem_part there)

theorem Block.mem_part {ns : List Node} (block : Block phrase ns items) (there : n ∈ ns) :
    .part phrase n ∈ items := by
  cases block with
  | mk nodes =>
    refine .tail _ (List.mem_append_right _ (.tail _ (List.mem_append_left _ ?_)))
    exact List.mem_map_of_mem there

theorem Body.mem_part {ns : List Node} (body : Body phrase ns items) (there : n ∈ ns) :
    .part phrase n ∈ items := by
  cases body with
  | block block => exact block.mem_part there
  | none => cases there

namespace Production

variable {first last : Token} {span : Span} {form : Form Node}

theorem mem_parts {phrase : Phrase} {nodes : List Node} {m : Node} (there : m ∈ nodes) :
    .part phrase m ∈ parts phrase nodes := List.mem_map_of_mem there

/-- A field is filled with a phrase of its sort, but for the if in place of the body of an else. -/
theorem mem_fields (made : Production phrase items first last span form) {field : Field} {m : Node}
    (there : (field, m) ∈ form.fields) : .part field.phrase m ∈ items ∨
      ∃ use, field = .branch use ∧ m.form.IsIf use ∧ .part use.phrase m ∈ items := by
  cases made with
  | elseIf use kind chained =>
    obtain ⟨rfl, member⟩ := Form.mem_inField.1 there
    obtain rfl := List.mem_singleton.1 member
    exact .inr ⟨use, rfl, chained, .tail _ List.mem_cons_self⟩
  | importedName | identifier | literal | this | super | jumpStmt => cases there
  | wrapped | unary | async | throwStmt | yieldStmt | staticMember =>
    obtain ⟨rfl, member⟩ := Form.mem_inField.1 there
    obtain rfl := List.mem_singleton.1 member
    exact .inl (.tail _ List.mem_cons_self)
  | member | expressionStmt | instanceMember =>
    obtain ⟨rfl, member⟩ := Form.mem_inField.1 there
    obtain rfl := List.mem_singleton.1 member
    exact .inl List.mem_cons_self
  | parameter =>
    obtain ⟨rfl, member⟩ := Form.mem_inField.1 there
    obtain rfl := List.mem_singleton.1 member
    exact .inl (.tail _ (.tail _ List.mem_cons_self))
  | binary | index | assignment =>
    obtain ⟨rfl, member⟩ := Form.mem_inField.1 there
    rcases List.mem_cons.1 member with rfl | member
    · exact .inl List.mem_cons_self
    · obtain rfl := List.mem_singleton.1 member
      exact .inl (.tail _ (.tail _ List.mem_cons_self))
  | typeRef named path arguments dimensions =>
    obtain ⟨rfl, member⟩ := Form.mem_inField.1 there
    have argument := InAngles.mem_part arguments member
    exact .inl (.tail _ (List.mem_append_right _ (List.mem_append_left _ argument)))
  | generic named bounded =>
    obtain ⟨rfl, member⟩ := Form.mem_inField.1 there
    exact .inl (.tail _ (bounded.mem_part member))
  | array opens content =>
    obtain ⟨rfl, member⟩ := Form.mem_inField.1 there
    exact .inl (.tail _ (content.mem_part member))
  | elseBranch use kind indented =>
    obtain ⟨rfl, member⟩ := Form.mem_inField.1 there
    exact .inl (.tail _ (indented.mem_part member))
  | returnStmt kind value =>
    obtain ⟨rfl, member⟩ := Form.mem_inField.1 there
    exact .inl (.tail _ (mem_parts member))
  | new kind content =>
    simp only [Form.fields, List.mem_append, Form.mem_inField, List.mem_singleton] at there
    rcases there with ⟨rfl, rfl⟩ | ⟨rfl, member⟩
    · exact .inl (.tail _ List.mem_cons_self)
    · have argument := content.mem_part member fun _ listed => listed.mem_part member
      exact .inl (.tail _ (.tail _ argument))
  | instanceOf =>
    simp only [Form.fields, List.mem_append, Form.mem_inField, List.mem_singleton] at there
    rcases there with ⟨rfl, rfl⟩ | ⟨rfl, rfl⟩
    · exact .inl List.mem_cons_self
    · exact .inl (.tail _ (.tail _ List.mem_cons_self))
  | call arguments opens content =>
    simp only [Form.fields, List.mem_append, Form.mem_inField, List.mem_singleton] at there
    rcases there with ⟨rfl, rfl⟩ | ⟨rfl, member⟩ | ⟨rfl, member⟩
    · exact .inl List.mem_cons_self
    · have argument := InAngles.mem_part arguments member
      exact .inl (.tail _ (List.mem_append_left _ argument))
    · have argument := content.mem_part member
      exact .inl (.tail _ (List.mem_append_right _ (.tail _ argument)))
  | conditional use kind indented otherwise =>
    simp only [Form.fields, List.mem_append, Form.mem_inField, List.mem_singleton] at there
    rcases there with ⟨rfl, rfl⟩ | ⟨rfl, member⟩ | ⟨rfl, member⟩
    · exact .inl (.tail _ List.mem_cons_self)
    · have statement := indented.mem_part member
      exact .inl (.tail _ (.tail _ (List.mem_append_left _ statement)))
    · have branch : .part .otherwise m ∈ parts .otherwise otherwise.toList := mem_parts member
      exact .inl (.tail _ (.tail _ (List.mem_append_right _ branch)))
  | variableDecl kind named annotated given =>
    simp only [Form.fields, List.mem_append, Form.mem_inField] at there
    rcases there with ⟨rfl, member⟩ | ⟨rfl, member⟩
    · have type := annotated.mem_part member
      exact .inl (.tail _ (.tail _ (List.mem_append_left _ type)))
    · have value := given.mem_part member
      exact .inl (.tail _ (.tail _ (List.mem_append_right _ value)))
  | functionDecl body kind named arguments opens content annotated indented =>
    simp only [Form.fields, List.mem_append, Form.mem_inField] at there
    rcases there with ((⟨rfl, member⟩ | ⟨rfl, member⟩) | ⟨rfl, member⟩) | ⟨rfl, member⟩
    · have generic := InAngles.mem_part arguments member
      exact .inl (.tail _ (.tail _ (List.mem_append_left _ generic)))
    · have parameter := content.mem_part member
      refine .inl (.tail _ (.tail _ (List.mem_append_right _ (.tail _ ?_))))
      exact List.mem_append_left _ parameter
    · have result := annotated.mem_part member
      refine .inl (.tail _ (.tail _ (List.mem_append_right _ (.tail _ ?_))))
      exact List.mem_append_right _ (List.mem_append_left _ result)
    · cases body with
      | none => cases member
      | some body =>
        have statement := Block.mem_part indented member
        refine .inl (.tail _ (.tail _ (List.mem_append_right _ (.tail _ ?_))))
        exact List.mem_append_right _ (List.mem_append_right _ statement)
  | constructor kind opens content indented =>
    simp only [Form.fields, List.mem_append, Form.mem_inField] at there
    rcases there with ⟨rfl, member⟩ | ⟨rfl, member⟩
    · have parameter := content.mem_part member
      exact .inl (.tail _ (.tail _ (List.mem_append_left _ parameter)))
    · have statement := indented.mem_part member
      exact .inl (.tail _ (.tail _ (List.mem_append_right _ statement)))
  | classDecl kind named arguments extended indented =>
    simp only [Form.fields, List.mem_append, Form.mem_inField, List.mem_filter] at there
    have members {m : Node} (member : m ∈ _) := indented.mem_part member
    rcases there with (⟨rfl, member⟩ | ⟨rfl, member⟩) |
      (⟨rfl, member, _⟩ | ⟨rfl, member, _⟩) | ⟨rfl, member, _⟩
    · have generic := InAngles.mem_part arguments member
      exact .inl (.tail _ (.tail _ (List.mem_append_left _ generic)))
    · have base := extended.mem_part member fun _ bases => bases.mem_part member
      refine .inl (.tail _ (.tail _ (List.mem_append_right _ ?_)))
      exact List.mem_append_left _ base
    all_goals
      refine .inl (.tail _ (.tail _ (List.mem_append_right _ ?_)))
      exact List.mem_append_right _ (members member)
  | importDecl kind named path renamed listed either =>
    obtain ⟨rfl, member⟩ := Form.mem_inField.1 there
    have name := listed.mem_part member fun _ names => names.mem_part member
    refine .inl (.tail _ (.tail _ (List.mem_append_right _ ?_)))
    exact List.mem_append_right _ name
  | forEach kind named annotated runs indented =>
    simp only [Form.fields, List.mem_append, Form.mem_inField, List.mem_singleton] at there
    rcases there with ⟨rfl, member⟩ | ⟨rfl, rfl⟩ | ⟨rfl, member⟩
    · have type := annotated.mem_part member
      exact .inl (.tail _ (.tail _ (List.mem_append_left _ type)))
    · refine .inl (.tail _ (.tail _ (List.mem_append_right _ ?_)))
      exact .tail _ List.mem_cons_self
    · have statement := indented.mem_part member
      refine .inl (.tail _ (.tail _ (List.mem_append_right _ ?_)))
      exact .tail _ (.tail _ statement)
  | repeatTimes kind counts indented =>
    simp only [Form.fields, List.mem_append, Form.mem_inField, List.mem_singleton] at there
    rcases there with ⟨rfl, rfl⟩ | ⟨rfl, member⟩
    · exact .inl (.tail _ List.mem_cons_self)
    · exact .inl (.tail _ (.tail _ (.tail _ (indented.mem_part member))))
  | switchCase kind more indented =>
    simp only [Form.fields, List.mem_append, Form.mem_inField, List.mem_cons] at there
    rcases there with ⟨rfl, rfl | member⟩ | ⟨rfl, member⟩
    · exact .inl (.tail _ List.mem_cons_self)
    · exact .inl (.tail _ (.tail _ (List.mem_append_left _ (more.mem_part member))))
    · exact .inl (.tail _ (.tail _ (List.mem_append_right _ (indented.mem_part member))))
  | whileLoop kind indented | switch kind indented =>
    simp only [Form.fields, List.mem_append, Form.mem_inField, List.mem_singleton] at there
    rcases there with ⟨rfl, rfl⟩ | ⟨rfl, member⟩
    · exact .inl (.tail _ List.mem_cons_self)
    · exact .inl (.tail _ (.tail _ (indented.mem_part member)))
  | catchClause kind named annotated indented =>
    simp only [Form.fields, List.mem_append, Form.mem_inField] at there
    rcases there with ⟨rfl, member⟩ | ⟨rfl, member⟩
    · have type := annotated.mem_part member
      exact .inl (.tail _ (.tail _ (List.mem_append_left _ type)))
    · have statement := indented.mem_part member
      exact .inl (.tail _ (.tail _ (List.mem_append_right _ statement)))
  | tryCatch kind indented =>
    simp only [Form.fields, List.mem_append, Form.mem_inField, List.mem_singleton] at there
    rcases there with ⟨rfl, member⟩ | ⟨rfl, rfl⟩
    · exact .inl (.tail _ (List.mem_append_left _ (indented.mem_part member)))
    · exact .inl (.tail _ (List.mem_append_right _ List.mem_cons_self))

end Production

end TekLang
