import TekLang.Node.Basic

/-!
# Descendants

All nodes of a tree in the order in which they begin: each node stands in front of everything below
it. `descendants_eq` is the rule in one line.
-/

namespace TekLang.Node

mutual

/-- A node and all that is below it, each node in front of its own children
    (`Node::descendants`). -/
def descendants : Node → List Node
  | ⟨id, span, form⟩ => ⟨id, span, form⟩ :: within form

/-- All nodes below a node of the given form. -/
def within : Form Node → List Node
  | .variableDecl _ type value => withinOption type ++ withinOption value
  | .functionDecl _ generics params result body =>
    withinList generics ++ withinList params ++ withinOption result ++ withinBody body
  | .classDecl _ generics bases constructors statics instances =>
    withinList generics ++ withinList bases ++
      (inSourceOrder Prod.fst
        (withinEach constructors ++ withinEach statics ++ withinEach instances)).flatMap Prod.snd
  | .importDecl _ _ exposed => withinList exposed
  | .assignment target value => descendants target ++ descendants value
  | .wrapped inner | .async inner => descendants inner
  | .unary _ operand => descendants operand
  | .binary left _ right => descendants left ++ descendants right
  | .call callee generics args => descendants callee ++ withinList generics ++ withinList args
  | .index object subscript => descendants object ++ descendants subscript
  | .member object _ => descendants object
  | .new type args => descendants type ++ withinList args
  | .instanceOf value type => descendants value ++ descendants type
  | .array elements => withinList elements
  | .conditional _ condition body otherwise =>
    descendants condition ++ withinList body ++ withinOption otherwise
  | .elseBranch _ body | .program body => withinList body
  | .switch subject cases => descendants subject ++ withinList cases
  | .forEach _ type iterable body => withinOption type ++ descendants iterable ++ withinList body
  | .repeatTimes header body | .whileLoop header body => descendants header ++ withinList body
  | .tryCatch body handler => withinList body ++ descendants handler
  | .throwStmt value | .yieldStmt value | .expressionStmt value => descendants value
  | .returnStmt value => withinOption value
  | .typeRef _ generics _ => withinList generics
  | .parameter _ type => descendants type
  | .generic _ bound => withinOption bound
  | .classMember _ value => descendants value
  | .constructor params body => withinList params ++ withinList body
  | .switchCase conditions body => withinList conditions ++ withinList body
  | .catchClause _ type body => withinOption type ++ withinList body
  | .identifier _ | .this | .super | .literal .. | .jumpStmt _ | .importedName .. => []

/-- The descendants of the nodes of a list, themselves included. -/
def withinList : List Node → List Node
  | [] => []
  | n :: ns => descendants n ++ withinList ns

/-- The descendants of a node that may be missing. -/
def withinOption : Option Node → List Node
  | none => []
  | some n => descendants n

/-- The descendants of a body that may be missing. -/
def withinBody : Option (List Node) → List Node
  | none => []
  | some ns => withinList ns

/-- For each node of a list where it starts and what its descendants are. -/
def withinEach : List Node → List (Position × List Node)
  | [] => []
  | n :: ns => (n.start, descendants n) :: withinEach ns

end

@[simp] theorem withinList_eq (ns : List Node) : withinList ns = ns.flatMap descendants := by
  induction ns with
  | nil => simp [withinList]
  | cons n ns ih => simp [withinList, ih]

@[simp] theorem withinOption_eq (n? : Option Node) :
    withinOption n? = n?.toList.flatMap descendants := by
  cases n? <;> simp [withinOption]

@[simp] theorem withinBody_eq (body : Option (List Node)) :
    withinBody body = (body.getD []).flatMap descendants := by
  cases body <;> simp [withinBody]

@[simp] theorem withinEach_eq (ns : List Node) :
    withinEach ns = ns.map fun n => (n.start, descendants n) := by
  induction ns with
  | nil => simp [withinEach]
  | cons n ns ih => simp [withinEach, ih]

/-- A node comes first and then, child by child, all that is below it. -/
theorem descendants_eq (n : Node) : n.descendants = n :: n.children.flatMap descendants := by
  obtain ⟨id, span, form⟩ := n
  rw [descendants]
  cases form <;> simp [within, children, Form.parts]
  case classDecl name generics bases constructors statics instances =>
    simp only [← List.map_append]
    rw [← @map_inSourceOrder _ _ start _ (fun n => (n.start, descendants n)) (by simp)]
    simp [List.flatMap_map]

end TekLang.Node
