import TekLang.Node.Descendants

/-!
# Trees without identities and spans

Two trees say the same if they differ only in how their nodes are numbered and in where they stand
in a text. `Node.bare` takes both away, so that such trees become equal.
-/

namespace TekLang

namespace Form

variable {α β : Type}

/-- Puts other things in the place of the nodes that a construct is made of. -/
@[grind =] def map (f : α → β) : Form α → Form β
  | variableDecl name type value => variableDecl name (type.map f) (value.map f)
  | functionDecl name generics params result body =>
    functionDecl name (generics.map f) (params.map f) (result.map f) (body.map (·.map f))
  | classDecl name generics bases constructors statics instances =>
    classDecl name (generics.map f) (bases.map f) (constructors.map f) (statics.map f)
      (instances.map f)
  | importDecl path rename exposed => importDecl path rename (exposed.map f)
  | assignment target value => assignment (f target) (f value)
  | wrapped inner => wrapped (f inner)
  | unary operator operand => unary operator (f operand)
  | binary left operator right => binary (f left) operator (f right)
  | call callee generics args => call (f callee) (generics.map f) (args.map f)
  | index object subscript => index (f object) (f subscript)
  | member object property => member (f object) property
  | new type args => new (f type) (args.map f)
  | instanceOf value type => instanceOf (f value) (f type)
  | async inner => async (f inner)
  | array elements => array (elements.map f)
  | conditional use condition body otherwise =>
    conditional use (f condition) (body.map f) (otherwise.map f)
  | elseBranch use body => elseBranch use (body.map f)
  | identifier name => identifier name
  | this => this
  | super => super
  | literal sort token => literal sort token
  | switch subject cases => switch (f subject) (cases.map f)
  | forEach name type iterable body => forEach name (type.map f) (f iterable) (body.map f)
  | repeatTimes amount body => repeatTimes (f amount) (body.map f)
  | whileLoop condition body => whileLoop (f condition) (body.map f)
  | tryCatch body handler => tryCatch (body.map f) (f handler)
  | throwStmt value => throwStmt (f value)
  | returnStmt value => returnStmt (value.map f)
  | yieldStmt value => yieldStmt (f value)
  | expressionStmt value => expressionStmt (f value)
  | jumpStmt jump => jumpStmt jump
  | program body => program (body.map f)
  | typeRef path generics depth => typeRef path (generics.map f) depth
  | parameter name type => parameter name (f type)
  | generic name bound => generic name (bound.map f)
  | classMember isStatic value => classMember isStatic (f value)
  | constructor params body => constructor (params.map f) (body.map f)
  | importedName name rename => importedName name rename
  | switchCase conditions body => switchCase (conditions.map f) (body.map f)
  | catchClause name type body => catchClause name (type.map f) (body.map f)

end Form

namespace Node

mutual

/-- A tree in which every node has the same number and the same span. -/
def bare : Node → Node
  | ⟨_, _, form⟩ => ⟨0, default, bareForm form⟩

/-- A form made of such trees. -/
def bareForm : Form Node → Form Node
  | .variableDecl name type value => .variableDecl name (bareOption type) (bareOption value)
  | .functionDecl name generics params result body =>
    .functionDecl name (bareList generics) (bareList params) (bareOption result) (bareBody body)
  | .classDecl name generics bases constructors statics instances =>
    .classDecl name (bareList generics) (bareList bases) (bareList constructors)
      (bareList statics) (bareList instances)
  | .importDecl path rename exposed => .importDecl path rename (bareList exposed)
  | .assignment target value => .assignment (bare target) (bare value)
  | .wrapped inner => .wrapped (bare inner)
  | .unary operator operand => .unary operator (bare operand)
  | .binary left operator right => .binary (bare left) operator (bare right)
  | .call callee generics args => .call (bare callee) (bareList generics) (bareList args)
  | .index object subscript => .index (bare object) (bare subscript)
  | .member object property => .member (bare object) property
  | .new type args => .new (bare type) (bareList args)
  | .instanceOf value type => .instanceOf (bare value) (bare type)
  | .async inner => .async (bare inner)
  | .array elements => .array (bareList elements)
  | .conditional use condition body otherwise =>
    .conditional use (bare condition) (bareList body) (bareOption otherwise)
  | .elseBranch use body => .elseBranch use (bareList body)
  | .identifier name => .identifier name
  | .this => .this
  | .super => .super
  | .literal sort token => .literal sort token
  | .switch subject cases => .switch (bare subject) (bareList cases)
  | .forEach name type iterable body =>
    .forEach name (bareOption type) (bare iterable) (bareList body)
  | .repeatTimes amount body => .repeatTimes (bare amount) (bareList body)
  | .whileLoop condition body => .whileLoop (bare condition) (bareList body)
  | .tryCatch body handler => .tryCatch (bareList body) (bare handler)
  | .throwStmt value => .throwStmt (bare value)
  | .returnStmt value => .returnStmt (bareOption value)
  | .yieldStmt value => .yieldStmt (bare value)
  | .expressionStmt value => .expressionStmt (bare value)
  | .jumpStmt jump => .jumpStmt jump
  | .program body => .program (bareList body)
  | .typeRef path generics depth => .typeRef path (bareList generics) depth
  | .parameter name type => .parameter name (bare type)
  | .generic name bound => .generic name (bareOption bound)
  | .classMember isStatic value => .classMember isStatic (bare value)
  | .constructor params body => .constructor (bareList params) (bareList body)
  | .importedName name rename => .importedName name rename
  | .switchCase conditions body => .switchCase (bareList conditions) (bareList body)
  | .catchClause name type body => .catchClause name (bareOption type) (bareList body)

/-- The trees of a list. -/
def bareList : List Node → List Node
  | [] => []
  | n :: ns => bare n :: bareList ns

/-- A tree that may be missing. -/
def bareOption : Option Node → Option Node
  | none => none
  | some n => some (bare n)

/-- A body that may be missing. -/
def bareBody : Option (List Node) → Option (List Node)
  | none => none
  | some ns => some (bareList ns)

end

theorem bareList_eq (ns : List Node) : bareList ns = ns.map bare := by
  induction ns with
  | nil => rfl
  | cons n ns ih => rw [bareList, ih, List.map_cons]

theorem bareOption_eq (n? : Option Node) : bareOption n? = n?.map bare := by
  cases n? <;> rfl

theorem bareBody_eq (body : Option (List Node)) : bareBody body = body.map (·.map bare) := by
  cases body with
  | none => rfl
  | some ns => rw [bareBody, bareList_eq, Option.map_some]

theorem bareForm_eq (form : Form Node) : bareForm form = form.map bare := by
  cases form <;> simp only [bareForm, Form.map, bareList_eq, bareOption_eq, bareBody_eq]

/-- Nothing of a node is kept but its form, and of that form the bare parts. -/
@[simp] theorem bare_mk (id : NodeId) (span : Span) (form : Form Node) :
    (⟨id, span, form⟩ : Node).bare = ⟨0, default, form.map bare⟩ := by
  rw [bare, bareForm_eq]

/-- Trees that say the same have forms that say the same. -/
theorem map_form_eq_of_bare_eq {a b : Node} (same : a.bare = b.bare) :
    a.form.map bare = b.form.map bare := by
  obtain ⟨aId, aSpan, aForm⟩ := a
  obtain ⟨bId, bSpan, bForm⟩ := b
  rw [bare_mk, bare_mk] at same
  exact congrArg Node.form same

end Node

end TekLang
