import TekLang.Proofs.Node.Bare

/-!
# Trees without places

A text that is moved says the same at another place. `Token.unplaced` and `Node.unplaced` take away
where tokens and nodes stand and how the nodes are numbered, so that things which say the same
become equal. `Placed` collects the kinds of thing that this can be asked of.
-/

namespace TekLang

/-- A token wherever it stands. -/
def Token.unplaced (t : Token) : Token := { t with span := default }

@[simp] theorem Token.kind_unplaced (t : Token) : t.unplaced.kind = t.kind := rfl

theorem Token.kind_eq_of_unplaced {t u : Token} (same : t.unplaced = u.unplaced) :
    t.kind = u.kind := by
  rw [← t.kind_unplaced, same, u.kind_unplaced]

namespace Form

variable {α β γ : Type}

/-- Puts other tokens in the place of the tokens that a construct is made of. -/
def mapTokens (f : Token → Token) : Form α → Form α
  | variableDecl name type value => variableDecl (f name) type value
  | functionDecl name generics params result body =>
    functionDecl (f name) generics params result body
  | classDecl name generics bases constructors statics instances =>
    classDecl (f name) generics bases constructors statics instances
  | importDecl path rename exposed => importDecl (path.map f) (rename.map f) exposed
  | unary operator operand => unary (f operator) operand
  | binary left operator right => binary left (f operator) right
  | member object property => member object (f property)
  | identifier name => identifier (f name)
  | literal sort token => literal sort (f token)
  | forEach name type iterable body => forEach (f name) type iterable body
  | typeRef path generics depth => typeRef (path.map f) generics depth
  | parameter name type => parameter (f name) type
  | generic name bound => generic (f name) bound
  | importedName name rename => importedName (f name) (rename.map f)
  | catchClause name type body => catchClause (f name) type body
  | form => form

theorem map_map (g : β → γ) (f : α → β) (form : Form α) :
    (form.map f).map g = form.map (g ∘ f) := by
  cases form <;> simp [map, List.map_map, Option.map_map, Function.comp_def]

end Form

namespace Node

mutual

/-- Puts other tokens in the place of all tokens of a tree. -/
def mapTokens (f : Token → Token) : Node → Node
  | ⟨id, span, form⟩ => ⟨id, span, mapForm f form⟩

/-- A form in which all tokens are replaced. -/
def mapForm (f : Token → Token) : Form Node → Form Node
  | .variableDecl name type value =>
    .variableDecl (f name) (mapOption f type) (mapOption f value)
  | .functionDecl name generics params result body =>
    .functionDecl (f name) (mapList f generics) (mapList f params) (mapOption f result)
      (mapBody f body)
  | .classDecl name generics bases constructors statics instances =>
    .classDecl (f name) (mapList f generics) (mapList f bases) (mapList f constructors)
      (mapList f statics) (mapList f instances)
  | .importDecl path rename exposed => .importDecl (path.map f) (rename.map f) (mapList f exposed)
  | .assignment target value => .assignment (mapTokens f target) (mapTokens f value)
  | .wrapped inner => .wrapped (mapTokens f inner)
  | .unary operator operand => .unary (f operator) (mapTokens f operand)
  | .binary left operator right => .binary (mapTokens f left) (f operator) (mapTokens f right)
  | .call callee generics args => .call (mapTokens f callee) (mapList f generics) (mapList f args)
  | .index object subscript => .index (mapTokens f object) (mapTokens f subscript)
  | .member object property => .member (mapTokens f object) (f property)
  | .new type args => .new (mapTokens f type) (mapList f args)
  | .instanceOf value type => .instanceOf (mapTokens f value) (mapTokens f type)
  | .async inner => .async (mapTokens f inner)
  | .array elements => .array (mapList f elements)
  | .conditional use condition body otherwise =>
    .conditional use (mapTokens f condition) (mapList f body) (mapOption f otherwise)
  | .elseBranch use body => .elseBranch use (mapList f body)
  | .identifier name => .identifier (f name)
  | .this => .this
  | .super => .super
  | .literal sort token => .literal sort (f token)
  | .switch subject cases => .switch (mapTokens f subject) (mapList f cases)
  | .forEach name type iterable body =>
    .forEach (f name) (mapOption f type) (mapTokens f iterable) (mapList f body)
  | .repeatTimes amount body => .repeatTimes (mapTokens f amount) (mapList f body)
  | .whileLoop condition body => .whileLoop (mapTokens f condition) (mapList f body)
  | .tryCatch body handler => .tryCatch (mapList f body) (mapTokens f handler)
  | .throwStmt value => .throwStmt (mapTokens f value)
  | .returnStmt value => .returnStmt (mapOption f value)
  | .yieldStmt value => .yieldStmt (mapTokens f value)
  | .expressionStmt value => .expressionStmt (mapTokens f value)
  | .jumpStmt jump => .jumpStmt jump
  | .program body => .program (mapList f body)
  | .typeRef path generics depth => .typeRef (path.map f) (mapList f generics) depth
  | .parameter name type => .parameter (f name) (mapTokens f type)
  | .generic name bound => .generic (f name) (mapOption f bound)
  | .classMember isStatic value => .classMember isStatic (mapTokens f value)
  | .constructor params body => .constructor (mapList f params) (mapList f body)
  | .importedName name rename => .importedName (f name) (rename.map f)
  | .switchCase conditions body => .switchCase (mapList f conditions) (mapList f body)
  | .catchClause name type body => .catchClause (f name) (mapOption f type) (mapList f body)

/-- The trees of a list. -/
def mapList (f : Token → Token) : List Node → List Node
  | [] => []
  | n :: ns => mapTokens f n :: mapList f ns

/-- A tree that may be missing. -/
def mapOption (f : Token → Token) : Option Node → Option Node
  | none => none
  | some n => some (mapTokens f n)

/-- A body that may be missing. -/
def mapBody (f : Token → Token) : Option (List Node) → Option (List Node)
  | none => none
  | some ns => some (mapList f ns)

end

variable (f : Token → Token)

theorem mapList_eq (ns : List Node) : mapList f ns = ns.map (mapTokens f) := by
  induction ns with
  | nil => rfl
  | cons n ns ih => rw [mapList, ih, List.map_cons]

theorem mapOption_eq (n? : Option Node) : mapOption f n? = n?.map (mapTokens f) := by
  cases n? <;> rfl

theorem mapBody_eq (body : Option (List Node)) :
    mapBody f body = body.map (·.map (mapTokens f)) := by
  cases body with
  | none => rfl
  | some ns => rw [mapBody, mapList_eq, Option.map_some]

theorem mapForm_eq (form : Form Node) : mapForm f form = (form.mapTokens f).map (mapTokens f) := by
  cases form <;> simp only [mapForm, Form.mapTokens, Form.map, mapList_eq, mapOption_eq, mapBody_eq]

/-- A tree wherever it stands and however its nodes are numbered. -/
def unplaced (n : Node) : Node := (n.mapTokens Token.unplaced).bare

/-- Nothing of a node is kept but its form, and of that the parts and the tokens without places. -/
theorem unplaced_mk (id : NodeId) (span : Span) (form : Form Node) :
    (⟨id, span, form⟩ : Node).unplaced =
      ⟨0, default, (form.mapTokens Token.unplaced).map unplaced⟩ := by
  rw [unplaced, mapTokens, mapForm_eq, bare_mk, Form.map_map]
  rfl

/-- Forms that say the same make nodes that do. -/
theorem unplaced_congr {a b : NodeId} {s t : Span} {form other : Form Node}
    (same : (form.mapTokens Token.unplaced).map unplaced =
      (other.mapTokens Token.unplaced).map unplaced) :
    (⟨a, s, form⟩ : Node).unplaced = (⟨b, t, other⟩ : Node).unplaced := by
  rw [unplaced_mk, unplaced_mk, same]

theorem form_eq_of_unplaced {m n : Node} (same : m.unplaced = n.unplaced) :
    (m.form.mapTokens Token.unplaced).map unplaced =
      (n.form.mapTokens Token.unplaced).map unplaced := by
  obtain ⟨i, span, form⟩ := m
  obtain ⟨j, other, form'⟩ := n
  rw [unplaced_mk, unplaced_mk] at same
  exact congrArg Node.form same

end Node

/-- Things that stand somewhere in a text. -/
class Placed (α : Type) where
  /-- What such a thing is wherever it stands. -/
  anywhere : α → α

namespace Placed

variable {α β : Type}

instance : Placed Token := ⟨Token.unplaced⟩

instance : Placed Node := ⟨Node.unplaced⟩

instance : Placed Unit := ⟨id⟩

instance : Placed Bool := ⟨id⟩

instance [Placed α] : Placed (List α) := ⟨List.map anywhere⟩

instance [Placed α] : Placed (Option α) := ⟨Option.map anywhere⟩

instance [Placed α] [Placed β] : Placed (α × β) := ⟨Prod.map anywhere anywhere⟩

end Placed

end TekLang
