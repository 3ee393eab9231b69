import TekLang.Proofs.Node.Reading
import TekLang.Proofs.Node.Unplaced

/-!
# What is made of a tree from its leaves up

`Node.fold` makes something of a tree: of each node its number, its span and its form, in whose
parts the same is done already. Whatever treats every node in this way is a fold (`Node.eq_fold`),
so two ways to change a tree are the same as soon as they are the same for a single node.
-/

namespace TekLang

/-- A form is changed alike by what changes its parts alike. -/
theorem Form.map_congr {α β : Type} {f g : α → β} {form : Form α}
    (same : ∀ a ∈ form.parts, f a = g a) : form.map f = form.map g := by
  have option {a? : Option α} (within : ∀ a, a? = some a → f a = g a) : a?.map f = a?.map g :=
    Option.map_congr within
  cases form with
  | functionDecl _ _ _ _ body => cases body <;> simp_all [map, parts]
  | _ => simp_all [map, parts]

theorem Form.map_id {α : Type} (form : Form α) : form.map id = form := by
  cases form <;> simp [map]

theorem Form.mapTokens_id {α : Type} (form : Form α) : form.mapTokens id = form := by
  cases form <;> simp [mapTokens]

theorem Form.mapTokens_map {α β : Type} (f : Token → Token) (g : α → β) (form : Form α) :
    (form.map g).mapTokens f = (form.mapTokens f).map g := by
  cases form <;> rfl

namespace Node

variable {α : Type}

mutual

/-- What is made of a tree, if `make` makes it of a node. -/
def fold (make : NodeId → Span → Form α → α) : Node → α
  | ⟨id, span, form⟩ => make id span (foldForm make form)

/-- A form whose parts are made. -/
def foldForm (make : NodeId → Span → Form α → α) : Form Node → Form α
  | .variableDecl name type value =>
    .variableDecl name (foldOption make type) (foldOption make value)
  | .functionDecl name generics params result body =>
    .functionDecl name (foldList make generics) (foldList make params) (foldOption make result)
      (foldBody make body)
  | .classDecl name generics bases constructors statics instances =>
    .classDecl name (foldList make generics) (foldList make bases) (foldList make constructors)
      (foldList make statics) (foldList make instances)
  | .importDecl path rename exposed => .importDecl path rename (foldList make exposed)
  | .assignment target value => .assignment (fold make target) (fold make value)
  | .wrapped inner => .wrapped (fold make inner)
  | .unary operator operand => .unary operator (fold make operand)
  | .binary left operator right => .binary (fold make left) operator (fold make right)
  | .call callee generics args =>
    .call (fold make callee) (foldList make generics) (foldList make args)
  | .index object subscript => .index (fold make object) (fold make subscript)
  | .member object property => .member (fold make object) property
  | .new type args => .new (fold make type) (foldList make args)
  | .instanceOf value type => .instanceOf (fold make value) (fold make type)
  | .async inner => .async (fold make inner)
  | .array elements => .array (foldList make elements)
  | .conditional use condition body otherwise =>
    .conditional use (fold make condition) (foldList make body) (foldOption make otherwise)
  | .elseBranch use body => .elseBranch use (foldList make body)
  | .identifier name => .identifier name
  | .this => .this
  | .super => .super
  | .literal sort token => .literal sort token
  | .switch subject cases => .switch (fold make subject) (foldList make cases)
  | .forEach name type iterable body =>
    .forEach name (foldOption make type) (fold make iterable) (foldList make body)
  | .repeatTimes amount body => .repeatTimes (fold make amount) (foldList make body)
  | .whileLoop condition body => .whileLoop (fold make condition) (foldList make body)
  | .tryCatch body handler => .tryCatch (foldList make body) (fold make handler)
  | .throwStmt value => .throwStmt (fold make value)
  | .returnStmt value => .returnStmt (foldOption make value)
  | .yieldStmt value => .yieldStmt (fold make value)
  | .expressionStmt value => .expressionStmt (fold make value)
  | .jumpStmt jump => .jumpStmt jump
  | .program body => .program (foldList make body)
  | .typeRef path generics depth => .typeRef path (foldList make generics) depth
  | .parameter name type => .parameter name (fold make type)
  | .generic name bound => .generic name (foldOption make bound)
  | .classMember isStatic value => .classMember isStatic (fold make value)
  | .constructor params body => .constructor (foldList make params) (foldList make body)
  | .importedName name rename => .importedName name rename
  | .switchCase conditions body => .switchCase (foldList make conditions) (foldList make body)
  | .catchClause name type body => .catchClause name (foldOption make type) (foldList make body)

/-- What is made of the trees of a list. -/
def foldList (make : NodeId → Span → Form α → α) : List Node → List α
  | [] => []
  | n :: ns => fold make n :: foldList make ns

/-- What is made of a tree that may be missing. -/
def foldOption (make : NodeId → Span → Form α → α) : Option Node → Option α
  | none => none
  | some n => some (fold make n)

/-- What is made of a body that may be missing. -/
def foldBody (make : NodeId → Span → Form α → α) : Option (List Node) → Option (List α)
  | none => none
  | some ns => some (foldList make ns)

end

variable (make : NodeId → Span → Form α → α)

theorem foldList_eq (ns : List Node) : foldList make ns = ns.map (fold make) := by
  induction ns with
  | nil => rfl
  | cons n ns ih => rw [foldList, ih, List.map_cons]

theorem foldOption_eq (n? : Option Node) : foldOption make n? = n?.map (fold make) := by
  cases n? <;> rfl

theorem foldBody_eq (body : Option (List Node)) :
    foldBody make body = body.map (·.map (fold make)) := by
  cases body with
  | none => rfl
  | some ns => rw [foldBody, foldList_eq, Option.map_some]

theorem foldForm_eq (form : Form Node) : foldForm make form = form.map (fold make) := by
  cases form <;> simp only [foldForm, Form.map, foldList_eq, foldOption_eq, foldBody_eq]

theorem fold_mk (id : NodeId) (span : Span) (form : Form Node) :
    fold make ⟨id, span, form⟩ = make id span (form.map (fold make)) := by
  rw [fold, foldForm_eq]

variable {make}

/-- What treats every node as a fold does is the fold. -/
theorem eq_fold {f : Node → α}
    (step : ∀ id span form, f ⟨id, span, form⟩ = make id span (form.map f)) (n : Node) :
    f n = fold make n := by
  induction n using induction_on_children with
  | step n ih =>
    obtain ⟨id, span, form⟩ := n
    rw [step, fold_mk, Form.map_congr fun part there => ih part (mem_children.2 there)]

/-- A tree with other numbers. -/
def renumbered (number : NodeId → NodeId) : Node → Node :=
  fold fun id span form => ⟨number id, span, form⟩

theorem renumbered_mk (number : NodeId → NodeId) (id : NodeId) (span : Span) (form : Form Node) :
    renumbered number ⟨id, span, form⟩ = ⟨number id, span, form.map (renumbered number)⟩ :=
  fold_mk _ id span form

/-- Trees that differ in their numbers say the same. -/
theorem bare_renumbered (number : NodeId → NodeId) (n : Node) :
    (n.renumbered number).bare = n.bare := by
  induction n using induction_on_children with
  | step n ih =>
    obtain ⟨id, span, form⟩ := n
    have parts : form.map (bare ∘ renumbered number) = form.map bare :=
      Form.map_congr fun part there => ih part (mem_children.2 there)
    rw [renumbered_mk, bare_mk, bare_mk, Form.map_map, parts]

end Node

end TekLang
