import TekLang.Proofs.Outcome
import TekLang.Proofs.Scope.Region

/-!
# Building scopes step by step

What the pass that builds the scopes does at a node, written as a list of steps: `Node.steps`.
`Runs` performs such steps on a tree of scopes and keeps a record of the nodes that the pass comes
to, with the scopes that it uses for their regions. `Halts` performs them up to a binding that is
refused. `performs_node` says that the pass does one or the other.
-/

namespace TekLang

/-- What is entered in a table for a declaration. -/
inductive Binding
  /-- A name; if it is bound already it stays as it is. -/
  | plain (name : String) (node : NodeId)
  /-- A name that must not be bound already. -/
  | unique (name : String) (node : NodeId) (taken : ScopeError)
  /-- A function, under a signature that must not be bound already. -/
  | function (name signature : String) (node : NodeId) (taken : ScopeError)

namespace Binding

/-- What must not be bound already. -/
def reserved? : Binding → Option String
  | plain .. => none
  | unique name .. => some name
  | function _ signature .. => some signature

/-- What the binding is entered under. -/
def key : Binding → String
  | plain name _ | unique name .. => name
  | function _ signature .. => signature

/-- The error if what must not be bound already is bound. -/
def refusal? : Binding → Option ScopeError
  | plain .. => none
  | unique _ _ taken | function _ _ _ taken => some taken

theorem reserved?_of_refusal? {b : Binding} {e : ScopeError} (reserves : b.refusal? = some e) :
    b.reserved? = some b.key := by
  cases b with
  | plain => cases reserves
  | unique | function => rfl

/-- Whether the binding can be entered in a table. -/
def IsFree (b : Binding) (t : SymbolTable) : Prop := ∀ name ∈ b.reserved?, t.has name = false

end Binding

/-- The table with a binding that is made in `scope`. -/
def SymbolTable.enter (t : SymbolTable) (scope : ScopeId) : Binding → SymbolTable
  | .plain name node | .unique name node _ => t.bind name ⟨node, scope⟩
  | .function name signature node _ =>
    (t.bind signature ⟨node, scope⟩).register name ⟨signature, ⟨node, scope⟩⟩

/-- Enters a binding in the table of a scope. -/
def ScopeTree.enter (tree : ScopeTree) (scope : ScopeId) : Binding → ScopeTree
  | .plain name node | .unique name node _ => tree.bind scope name node
  | .function name signature node _ =>
    (tree.bind scope signature node).register scope name signature node

/-- The bindings of generics and parameters. -/
def parameterBindings (ns : List Node) : List Binding :=
  ns.filterMap fun n =>
    match n.form with
    | .generic name _ | .parameter name _ => some (.plain name.lexeme n.id)
    | _ => none

/-- The binding of a name that an import lists. -/
def listedBinding? (n : Node) : Option Binding :=
  n.declaredName?.map fun name => .plain name.lexeme n.id

/-- The bindings of an import. -/
def importBindings (node : NodeId) (path : List Token) (rename : Option Token)
    (exposed : List Node) : List Binding :=
  match rename with
  | some name => [.plain name.lexeme node]
  | none =>
    if exposed.isEmpty then path.getLast?.toList.map fun last => .plain last.lexeme node
    else exposed.filterMap listedBinding?

/-- The binding of a constructor. -/
def constructorBindings (generics : List Node) (n : Node) : List Binding :=
  match n.form with
  | .constructor params _ => [.plain (Signature.ofConstructor generics params) n.id]
  | _ => []

/-- A scope that a node opens, and for a class the scope of its static members with it. -/
structure Opening (α : Type) where
  kind : ScopeKind
  node : NodeId
  around : α
  own : α
  statics : Option α

/-- A step in building scopes. -/
inductive ScopeStep (α : Type)
  | enter (scope : α) (binding : Binding)
  | opening (o : Opening α)
  /-- The pass comes to a node that stands in `scope`. -/
  | visit (scope : α) (n : Node)

section Steps

variable {α : Type}

/-- Enters bindings in one scope. -/
def enterAll (scope : α) (bs : List Binding) : List (ScopeStep α) := bs.map (.enter scope)

/-- Comes to the nodes of a list that stand in one scope. -/
def visitAll (scope : α) (ns : List Node) : List (ScopeStep α) := ns.map (.visit scope)

/-- Enters the constructors of a class and comes to them. -/
def constructorSteps (own : α) (generics constructors : List Node) : List (ScopeStep α) :=
  constructors.flatMap fun n => enterAll own (constructorBindings generics n) ++ visitAll own [n]

/-- The kind of scope that a node of the form opens, if it opens one. -/
def Form.opens? : Form α → Option ScopeKind
  | functionDecl .. | constructor .. => some .function
  | classDecl .. => some .instances
  | conditional .. | elseBranch .. | switchCase .. | forEach .. | repeatTimes .. | whileLoop ..
  | tryCatch .. | catchClause .. => some .block
  | _ => none

theorem Form.opens?_ne_statics {form : Form α} {kind : ScopeKind}
    (opens : form.opens? = some kind) : kind ≠ .statics := by
  cases form <;> cases opens <;> decide

/-- Whether a node of the form opens a second scope, for static members. -/
def Form.opensStatics : Form α → Bool
  | classDecl .. => true
  | _ => false

theorem Form.opens?_of_opensStatics {form : Form α} (opens : form.opensStatics = true) :
    form.opens? = some .instances := by
  cases form <;> first | rfl | cases opens

/-- Regions that a node does not open are the ones that it lies in. -/
structure Regions.Fits (r : Regions α) (form : Form Node) : Prop where
  own : form.opens? = none → r.own = r.around
  statics : form.opensStatics = false → r.statics = r.own

/-- The scopes of a node are numbered from outside to inside. -/
structure Regions.Ordered (r : Regions ScopeId) (form : Form Node) : Prop where
  own : form.opens? ≠ none → r.around < r.own
  statics : form.opensStatics = true → r.own < r.statics

/-- Opens the scope of a node. -/
def openOwn (kind : ScopeKind) (node : NodeId) (r : Regions α) : ScopeStep α :=
  .opening ⟨kind, node, r.around, r.own, none⟩

/-- What the pass does at a node with the regions `r`. -/
def Node.steps (n : Node) (r : Regions α) : List (ScopeStep α) :=
  match n.form with
  | .variableDecl name _ value =>
    .enter r.around (.plain name.lexeme n.id) :: visitAll r.around value.toList
  | .functionDecl name generics params _ body =>
    let signature := Signature.ofFunction name generics params
    .enter r.around
        (.function name.lexeme signature n.id (.duplicateFunction signature n.span)) ::
      openOwn .function n.id r ::
        (enterAll r.own (parameterBindings generics) ++
          (enterAll r.own (parameterBindings params) ++ visitAll r.own (body.getD [])))
  | .classDecl name generics _ constructors statics instances =>
    .enter r.around (.unique name.lexeme n.id (.duplicateClass name.lexeme name.span)) ::
      .opening ⟨.instances, n.id, r.around, r.own, some r.statics⟩ ::
      .opening ⟨.statics, n.id, r.own, r.statics, none⟩ ::
        (enterAll r.own (parameterBindings generics) ++
          (constructorSteps r.own generics constructors ++
            (visitAll r.statics statics ++ visitAll r.own instances)))
  | .importDecl path rename exposed =>
    enterAll r.around (importBindings n.id path rename exposed)
  | .conditional _ condition body otherwise =>
    visitAll r.around [condition] ++ openOwn .block n.id r ::
      (visitAll r.own body ++ visitAll r.around otherwise.toList)
  | .elseBranch _ body => openOwn .block n.id r :: visitAll r.own body
  | .switchCase conditions body =>
    visitAll r.around conditions ++ openOwn .block n.id r :: visitAll r.own body
  | .forEach name _ iterable body =>
    visitAll r.around [iterable] ++ openOwn .block n.id r ::
      .enter r.own (.plain name.lexeme n.id) :: visitAll r.own body
  | .repeatTimes header body | .whileLoop header body =>
    visitAll r.around [header] ++ openOwn .block n.id r :: visitAll r.own body
  | .tryCatch body handler =>
    openOwn .block n.id r ::
      (visitAll r.own body ++ visitAll r.around [handler])
  | .catchClause name _ body =>
    openOwn .block n.id r ::
      .enter r.own (.plain name.lexeme n.id) :: visitAll r.own body
  | .constructor params body =>
    openOwn .function n.id r ::
      (enterAll r.own (parameterBindings params) ++ visitAll r.own body)
  | .call callee _ args => visitAll r.around (callee :: args)
  | .new _ args => visitAll r.around args
  | .instanceOf value _ => visitAll r.around [value]
  | .assignment .. | .wrapped _ | .unary .. | .binary .. | .index .. | .member .. | .async _
  | .array _ | .switch .. | .throwStmt _ | .returnStmt _ | .yieldStmt _ | .expressionStmt _
  | .program _ | .classMember .. => visitAll r.around n.form.parts
  | .identifier _ | .this | .super | .literal .. | .jumpStmt _ | .typeRef .. | .parameter ..
  | .generic .. | .importedName .. => []

end Steps

/-- Adds a scope behind all others. That of the static members of a class is not found by its
    node. -/
def ScopeTree.add (tree : ScopeTree) (o : Opening ScopeId) : ScopeTree :=
  let added : ScopeTree :=
    ⟨tree.scopes.push ⟨o.kind, o.node, tree.path o.around, .empty, [], o.statics⟩⟩
  if o.kind = .statics then added
  else added.modify o.around fun s => { s with inner := s.inner ++ [(o.node, o.own)] }

/-- Performs steps one after another. The record has the nodes that the pass comes to, in their
    order, with the scopes of their regions; a scope that is opened is the next one. -/
inductive Runs : List (ScopeStep ScopeId) → ScopeTree → List (Node × Regions ScopeId) →
    ScopeTree → Prop
  | nil (tree) : Runs [] tree [] tree
  | enter {scope b steps tree record tree'} (known : scope < tree.size)
    (free : b.IsFree (tree.table scope)) (others : Runs steps (tree.enter scope b) record tree') :
    Runs (.enter scope b :: steps) tree record tree'
  | opening {o steps tree record tree'} (known : o.around < tree.size) (next : o.own = tree.size)
    (others : Runs steps (tree.add o) record tree') :
    Runs (.opening o :: steps) tree record tree'
  | visit {n r steps tree inner tree₁ record tree'} (known : r.around < tree.size)
    (fits : r.Fits n.form) (within : Runs (n.steps r) tree inner tree₁)
    (others : Runs steps tree₁ record tree') :
    Runs (.visit r.around n :: steps) tree ((n, r) :: (inner ++ record)) tree'

/-- Performs steps up to one that fails: a binding is refused because its name is bound already, or
    the pass comes to a node and fails there. -/
inductive Halts : List (ScopeStep ScopeId) → ScopeTree → ScopeError → Prop
  | enter {before scope b after tree record tree' e} (runs : Runs before tree record tree')
    (known : scope < tree'.size) (refuses : b.refusal? = some e)
    (taken : (tree'.table scope).has b.key = true) :
    Halts (before ++ .enter scope b :: after) tree e
  | visit {before r n after tree record tree' e} (runs : Runs before tree record tree')
    (known : r.around < tree'.size) (ordered : r.Ordered n.form)
    (within : Halts (n.steps r) tree' e) : Halts (before ++ .visit r.around n :: after) tree e

namespace ScopeTree

@[simp] theorem size_modify (tree : ScopeTree) (id : ScopeId) (f : Scope → Scope) :
    (tree.modify id f).size = tree.size := Array.size_modify ..

@[simp] theorem size_enter (tree : ScopeTree) (scope : ScopeId) (b : Binding) :
    (tree.enter scope b).size = tree.size := by
  cases b with
  | plain | unique => exact size_modify ..
  | function => exact (size_modify ..).trans (size_modify ..)

@[simp] theorem size_add (tree : ScopeTree) (o : Opening ScopeId) :
    (tree.add o).size = tree.size + 1 := by
  unfold add
  split
  · exact Array.size_push ..
  · exact (size_modify ..).trans (Array.size_push ..)

theorem get?_modify (tree : ScopeTree) (id s : ScopeId) (f : Scope → Scope) :
    (tree.modify id f).get? s = if id = s then (tree.get? s).map f else tree.get? s := by
  unfold get? modify
  rw [Array.getElem?_modify]

theorem get?_push (tree : ScopeTree) (scope : Scope) (s : ScopeId) :
    get? ⟨tree.scopes.push scope⟩ s = if s = tree.size then some scope else tree.get? s :=
  Array.getElem?_push

theorem get?_size (tree : ScopeTree) : tree.get? tree.size = none :=
  Array.getElem?_eq_none (Nat.le_refl _)

/-- What is added stands behind all others, and the scope around it knows of it. -/
theorem get?_add (tree : ScopeTree) {o : Opening ScopeId} (known : o.around < tree.size)
    (s : ScopeId) :
    (tree.add o).get? s =
      if s = tree.size then some ⟨o.kind, o.node, tree.path o.around, .empty, [], o.statics⟩
      else if o.kind ≠ .statics ∧ o.around = s then
        (tree.get? s).map fun sc => { sc with inner := sc.inner ++ [(o.node, o.own)] }
      else tree.get? s := by
  unfold add
  by_cases static : o.kind = .statics
  · simp [static, get?_push]
  · by_cases behind : s = tree.size
    · have other : o.around ≠ tree.size := Nat.ne_of_lt known
      simp [static, behind, other, get?_modify, get?_push]
    · simp [static, behind, get?_modify, get?_push]

theorem path_add (tree : ScopeTree) {o : Opening ScopeId} (known : o.around < tree.size) :
    (tree.add o).path tree.size = tree.size :: tree.path o.around := by
  rw [path, get?_add _ known, if_pos rfl]

theorem ext_get? {tree tree' : ScopeTree} (same : ∀ s, tree.get? s = tree'.get? s) :
    tree = tree' := by
  obtain ⟨scopes⟩ := tree
  obtain ⟨scopes'⟩ := tree'
  exact congrArg _ (Array.ext_getElem? same)

theorem openScope_eq_add (tree : ScopeTree) {kind : ScopeKind} (node : NodeId) (around : ScopeId)
    (other : kind ≠ .statics) :
    tree.openScope kind node around = tree.add ⟨kind, node, around, tree.size, none⟩ :=
  (if_neg other).symm

/-- The two scopes of a class. -/
theorem openClass_eq_add {tree : ScopeTree} (node : NodeId) {around : ScopeId}
    (known : around < tree.size) :
    (tree.openScope .instances node around).openStatics node tree.size =
      (tree.add ⟨.instances, node, around, tree.size, some (tree.size + 1)⟩).add
        ⟨.statics, node, tree.size, tree.size + 1, none⟩ := by
  have size : (tree.openScope .instances node around).size = tree.size + 1 := by
    rw [openScope_eq_add _ _ _ (by decide), size_add]
  have path : (tree.openScope .instances node around).path tree.size =
      (tree.add ⟨.instances, node, around, tree.size, some (tree.size + 1)⟩).path tree.size := by
    rw [openScope_eq_add _ _ _ (by decide), path_add _ known, path_add _ known]
  refine ext_get? ?_
  intro s
  rw [get?_add _ (by rw [size_add]; exact Nat.lt_succ_self _), openStatics, get?_modify, allocate,
    get?_push, size, size_add, path, openScope_eq_add _ _ _ (by decide), get?_add _ known,
    get?_add _ known]
  rcases Nat.lt_trichotomy s tree.size with less | rfl | more
  · have := Nat.ne_of_lt less
    simp [this, this.symm, Nat.ne_of_lt (Nat.lt_succ_of_lt less)]
  · simp
  · have := Nat.ne_of_gt more
    simp [this, this.symm]

end ScopeTree

namespace Runs

variable {steps : List (ScopeStep ScopeId)} {tree tree' : ScopeTree}
  {record : List (Node × Regions ScopeId)}

theorem append {steps' : List (ScopeStep ScopeId)} {tree'' : ScopeTree}
    {record' : List (Node × Regions ScopeId)} (first : Runs steps tree record tree')
    (second : Runs steps' tree' record' tree'') :
    Runs (steps ++ steps') tree (record ++ record') tree'' := by
  induction first with
  | nil => exact second
  | enter known free _ ih => exact .enter known free (ih second)
  | opening known next _ ih => exact .opening known next (ih second)
  | visit known fits within _ _ ih =>
    rw [List.cons_append, List.cons_append, List.append_assoc]
    exact .visit known fits within (ih second)

/-- Scopes are opened and never closed. -/
theorem size_le (runs : Runs steps tree record tree') : tree.size ≤ tree'.size := by
  induction runs with
  | nil => exact Nat.le_refl _
  | enter _ _ _ ih =>
    rw [ScopeTree.size_enter] at ih
    exact ih
  | opening _ _ _ ih =>
    rw [ScopeTree.size_add] at ih
    exact Nat.le_of_succ_le ih
  | visit _ _ _ _ ih_within ih => exact Nat.le_trans ih_within ih

end Runs

/-- What comes of performing steps: they are performed to the end, or one of them fails. -/
def PassOutcome (steps : List (ScopeStep ScopeId)) (tree : ScopeTree) :
    EStateM.Result ScopeError ScopeTree Unit → Prop
  | .ok _ tree' => ∃ record, Runs steps tree record tree'
  | .error e _ => Halts steps tree e

section Outcomes

variable {steps steps' : List (ScopeStep ScopeId)} {tree tree' : ScopeTree}
  {record : List (Node × Regions ScopeId)} {e : ScopeError}

/-- Steps that fail fail in front of further steps. -/
theorem Halts.append (halts : Halts steps tree e) (steps' : List (ScopeStep ScopeId)) :
    Halts (steps ++ steps') tree e := by
  cases halts with
  | enter runs known refuses taken =>
    rw [List.append_assoc, List.cons_append]
    exact .enter runs known refuses taken
  | visit runs known ordered within =>
    rw [List.append_assoc, List.cons_append]
    exact .visit runs known ordered within

/-- And behind steps that are performed. -/
theorem Runs.halts (runs : Runs steps tree record tree') (halts : Halts steps' tree' e) :
    Halts (steps ++ steps') tree e := by
  cases halts with
  | enter runs' known refuses taken =>
    rw [← List.append_assoc]
    exact .enter (runs.append runs') known refuses taken
  | visit runs' known ordered within =>
    rw [← List.append_assoc]
    exact .visit (runs.append runs') known ordered within

theorem Runs.outcome (runs : Runs steps tree record tree')
    {result : EStateM.Result ScopeError ScopeTree Unit} (others : PassOutcome steps' tree' result) :
    PassOutcome (steps ++ steps') tree result := by
  cases result with
  | ok _ tree'' =>
    obtain ⟨record', runs'⟩ := others
    exact ⟨_, runs.append runs'⟩
  | error e _ => exact runs.halts others

end Outcomes

namespace ScopeBuild

/-- Where the scopes up to `most` exist, the pass performs the steps. -/
def Performs (most : ScopeId) (p : ScopeBuild Unit) (steps : List (ScopeStep ScopeId)) : Prop :=
  ∀ tree, most < tree.size → PassOutcome steps tree (p tree)

/-- The pass performs the steps of a node that stands in `scope`. -/
def PerformsNode (scope : ScopeId) (n : Node) : Prop :=
  ∀ tree, scope < tree.size → ∃ r : Regions ScopeId, r.around = scope ∧ r.Fits n.form ∧
    r.Ordered n.form ∧ PassOutcome (n.steps r) tree (visit scope n tree)

variable {most : ScopeId}

theorem bindNew_apply (scope : ScopeId) (name : String) (node : NodeId) (taken : ScopeError)
    (tree : ScopeTree) : bindNew scope name node taken tree =
      if (tree.table scope).has name then .error taken tree
      else .ok () (tree.bind scope name node) := by
  by_cases bound : (tree.table scope).has name = true
  · rw [if_pos bound]
    change (if (tree.table scope).has name = true then _ else _ : ScopeBuild Unit) tree = _
    rw [if_pos bound]
    rfl
  · rw [if_neg bound]
    change (if (tree.table scope).has name = true then _ else _ : ScopeBuild Unit) tree = _
    rw [if_neg bound]
    rfl

namespace Performs

theorem pure : Performs most (Pure.pure ()) [] := fun tree _ => ⟨[], .nil tree⟩

theorem bind {p q : ScopeBuild Unit} {steps steps' : List (ScopeStep ScopeId)}
    (first : Performs most p steps) (second : Performs most q steps') :
    Performs most (p >>= fun _ => q) (steps ++ steps') := by
  intro tree known
  have outcome := first tree known
  rw [bind_apply]
  cases run : p tree with
  | ok _ tree' =>
    rw [run] at outcome
    obtain ⟨record, runs⟩ := outcome
    exact runs.outcome (second tree' (Nat.lt_of_lt_of_le known runs.size_le))
  | error e _ =>
    rw [run] at outcome
    exact Halts.append outcome steps'

theorem plain {scope : ScopeId} (le : scope ≤ most) (name : String) (node : NodeId) :
    Performs most (ScopeBuild.bind scope name node) [.enter scope (.plain name node)] := by
  intro tree known
  have free : (Binding.plain name node).IsFree (tree.table scope) := by
    intro reserved none
    cases none
  exact ⟨_, .enter (Nat.lt_of_le_of_lt le known) free (.nil _)⟩

theorem unique {scope : ScopeId} (le : scope ≤ most) (name : String) (node : NodeId)
    (taken : ScopeError) :
    Performs most (bindNew scope name node taken) [.enter scope (.unique name node taken)] := by
  intro tree known
  have known := Nat.lt_of_le_of_lt le known
  rw [bindNew_apply]
  split
  · next bound => exact Halts.enter (.nil tree) known rfl bound
  · next unbound =>
    have free : (Binding.unique name node taken).IsFree (tree.table scope) := by
      intro reserved same
      cases same
      exact eq_false_of_ne_true unbound
    exact ⟨_, .enter known free (.nil _)⟩

theorem function {scope : ScopeId} (le : scope ≤ most) (node : NodeId) (span : Span) (name : Token)
    (signature : String) :
    Performs most (bindFunction scope node span name signature)
      [.enter scope
        (.function name.lexeme signature node (.duplicateFunction signature span))] := by
  intro tree known
  have known := Nat.lt_of_le_of_lt le known
  rw [bindFunction, bind_apply, bindNew_apply]
  by_cases bound : (tree.table scope).has signature = true
  · rw [if_pos bound]
    exact Halts.enter (.nil tree) known rfl bound
  · rw [if_neg bound]
    have free : (Binding.function name.lexeme signature node
        (.duplicateFunction signature span)).IsFree (tree.table scope) := by
      intro reserved same
      cases same
      exact eq_false_of_ne_true bound
    exact ⟨_, .enter known free (.nil _)⟩

theorem bindNames {scope : ScopeId} (le : scope ≤ most) (ns : List Node) :
    Performs most (bindNames scope ns) (enterAll scope (parameterBindings ns)) := by
  induction ns with
  | nil => exact pure
  | cons n ns ih =>
    obtain ⟨id, span, form⟩ := n
    cases form with
    | generic name | parameter name => exact (plain le name.lexeme id).bind ih
    | _ => exact pure.bind ih

theorem bindImport {scope : ScopeId} (le : scope ≤ most) (node : NodeId) (path : List Token)
    (rename : Option Token) (exposed : List Node) :
    Performs most (bindImport scope node path rename exposed)
      (enterAll scope (importBindings node path rename exposed)) := by
  have listed (ns : List Node) : Performs most (ns.forM fun n =>
      match n.declaredName? with
      | some name => ScopeBuild.bind scope name.lexeme n.id
      | none => Pure.pure ())
      (enterAll scope (ns.filterMap listedBinding?)) := by
    induction ns with
    | nil => exact pure
    | cons n ns ih =>
      have first : Performs most
          (match n.declaredName? with
          | some name => ScopeBuild.bind scope name.lexeme n.id
          | none => Pure.pure ())
          (enterAll scope (listedBinding? n).toList) := by
        unfold listedBinding?
        cases n.declaredName? with
        | none => exact pure
        | some name => exact plain le name.lexeme n.id
      have parted : (n :: ns).filterMap listedBinding? =
          (listedBinding? n).toList ++ ns.filterMap listedBinding? := by
        rw [List.filterMap_cons]
        cases listedBinding? n <;> rfl
      rw [parted, enterAll, List.map_append]
      exact first.bind ih
  unfold ScopeBuild.bindImport importBindings
  cases rename with
  | some name => exact plain le name.lexeme node
  | none =>
    cases exposed with
    | nil =>
      cases path.getLast? with
      | none => exact pure
      | some last => exact plain le last.lexeme node
    | cons n ns => exact listed (n :: ns)

theorem bindConstructor {scope : ScopeId} (le : scope ≤ most) (generics : List Node) (n : Node) :
    Performs most (bindConstructor scope generics n)
      (enterAll scope (constructorBindings generics n)) := by
  obtain ⟨id, span, form⟩ := n
  cases form with
  | constructor params => exact plain le _ id
  | _ => exact pure

theorem visit {scope : ScopeId} (le : scope ≤ most) {n : Node} (node : PerformsNode scope n) :
    Performs most (ScopeBuild.visit scope n) (visitAll scope [n]) := by
  intro tree known
  have known := Nat.lt_of_le_of_lt le known
  obtain ⟨r, rfl, fits, ordered, outcome⟩ := node tree known
  cases run : ScopeBuild.visit r.around n tree with
  | ok _ tree' =>
    rw [run] at outcome
    obtain ⟨record, runs⟩ := outcome
    exact ⟨_, .visit known fits runs (.nil tree')⟩
  | error e _ =>
    rw [run] at outcome
    exact Halts.visit (.nil tree) known ordered outcome

theorem visitList {scope : ScopeId} (le : scope ≤ most) {ns : List Node}
    (each : ∀ n ∈ ns, PerformsNode scope n) :
    Performs most (ScopeBuild.visitList scope ns) (visitAll scope ns) := by
  induction ns with
  | nil => exact pure
  | cons n ns ih =>
    have first := visit le (each n List.mem_cons_self)
    have others : ∀ m ∈ ns, PerformsNode scope m := by
      intro m member
      exact each m (.tail _ member)
    exact first.bind (ih others)

theorem visitOption {scope : ScopeId} (le : scope ≤ most) {n? : Option Node}
    (each : ∀ n ∈ n?.toList, PerformsNode scope n) :
    Performs most (ScopeBuild.visitOption scope n?) (visitAll scope n?.toList) := by
  cases n? with
  | none => exact pure
  | some n => exact visit le (each n List.mem_cons_self)

theorem visitBody {scope : ScopeId} (le : scope ≤ most) {body : Option (List Node)}
    (each : ∀ n ∈ body.getD [], PerformsNode scope n) :
    Performs most (ScopeBuild.visitBody scope body) (visitAll scope (body.getD [])) := by
  cases body with
  | none => exact pure
  | some ns => exact visitList le each

theorem visitConstructors {scope : ScopeId} (le : scope ≤ most) (generics : List Node)
    {ns : List Node} (each : ∀ n ∈ ns, PerformsNode scope n) :
    Performs most (ScopeBuild.visitConstructors scope generics ns)
      (constructorSteps scope generics ns) := by
  induction ns with
  | nil => exact pure
  | cons n ns ih =>
    have others : ∀ m ∈ ns, PerformsNode scope m := by
      intro m member
      exact each m (.tail _ member)
    have both := (visit le (each n List.mem_cons_self)).bind (ih others)
    have all := (bindConstructor le generics n).bind both
    rw [← List.append_assoc] at all
    exact all

end Performs

/-- A node that opens no scope. -/
theorem performsNode_of_closed {n : Node} {scope : ScopeId} (closed : n.form.opens? = none)
    (performs : Performs scope (visit scope n) (n.steps ⟨scope, scope, scope⟩)) :
    PerformsNode scope n := by
  intro tree known
  refine ⟨_, rfl, ⟨fun _ => rfl, fun _ => rfl⟩, ⟨fun opens => absurd closed opens, ?_⟩,
    performs tree known⟩
  intro opens
  rw [Form.opens?_of_opensStatics opens] at closed
  cases closed

/-- A node that opens one scope does something before in the scope it stands in, and then goes on in
    a scope behind all others. -/
theorem performsNode_of_opening {n : Node} {scope : ScopeId} {kind : ScopeKind}
    {p : ScopeBuild Unit} {q : ScopeId → ScopeBuild Unit} {before : List (ScopeStep ScopeId)}
    {after : ScopeId → List (ScopeStep ScopeId)} (opens : n.form.opens? = some kind)
    (single : n.form.opensStatics = false) (first : Performs scope p before)
    (rest : ∀ own, scope ≤ own → Performs own (q own) (after own))
    (parted : visit scope n = (p >>= fun _ => openScope kind n.id scope >>= q))
    (steps : ∀ own, n.steps ⟨scope, own, own⟩ =
      before ++ .opening ⟨kind, n.id, scope, own, none⟩ :: after own) : PerformsNode scope n := by
  intro tree known
  have suits (own : ScopeId) (less : scope < own) :
      (Regions.mk scope own own).Fits n.form ∧ (Regions.mk scope own own).Ordered n.form := by
    refine ⟨⟨fun closed => ?_, fun _ => rfl⟩, ⟨fun _ => less, fun opens => ?_⟩⟩
    · rw [opens] at closed
      cases closed
    · rw [single] at opens
      cases opens
  have outcome := first tree known
  rw [parted, bind_apply]
  cases run : p tree with
  | error e tree₁ =>
    rw [run] at outcome
    refine ⟨_, rfl, (suits tree.size known).1, (suits tree.size known).2, ?_⟩
    rw [steps]
    exact Halts.append outcome _
  | ok _ tree₁ =>
    rw [run] at outcome
    obtain ⟨record, runs⟩ := outcome
    have known₁ := Nat.lt_of_lt_of_le known runs.size_le
    have known₂ : tree₁.size < (tree₁.add ⟨kind, n.id, scope, tree₁.size, none⟩).size := by
      rw [ScopeTree.size_add]
      exact Nat.lt_succ_self _
    have opened := ScopeTree.openScope_eq_add tree₁ n.id scope (Form.opens?_ne_statics opens)
    have others := rest tree₁.size (Nat.le_of_lt known₁) _ known₂
    have first : Runs [.opening ⟨kind, n.id, scope, tree₁.size, none⟩] tree₁ [] _ :=
      .opening known₁ rfl (.nil _)
    have outcome := runs.outcome (first.outcome others)
    rw [← opened] at outcome
    refine ⟨_, rfl, (suits tree₁.size known₁).1, (suits tree₁.size known₁).2, ?_⟩
    rw [steps]
    exact outcome

theorem performsNode_of_opening_first {n : Node} {scope : ScopeId} {kind : ScopeKind}
    {q : ScopeId → ScopeBuild Unit} {after : ScopeId → List (ScopeStep ScopeId)}
    (opens : n.form.opens? = some kind) (single : n.form.opensStatics = false)
    (rest : ∀ own, scope ≤ own → Performs own (q own) (after own))
    (parted : visit scope n = openScope kind n.id scope >>= q)
    (steps : ∀ own, n.steps ⟨scope, own, own⟩ =
      .opening ⟨kind, n.id, scope, own, none⟩ :: after own) :
    PerformsNode scope n :=
  performsNode_of_opening opens single .pure rest parted steps

/-- A class goes on in two scopes behind all others. -/
theorem performsNode_class {id : NodeId} {span : Span} {scope : ScopeId} {name : Token}
    {generics bases constructors statics instances : List Node}
    (each : ∀ m ∈ constructors ++ statics ++ instances, ∀ scope, PerformsNode scope m) :
    PerformsNode scope
      ⟨id, span, .classDecl name generics bases constructors statics instances⟩ := by
  intro tree known
  have suits (own : ScopeId) (less : scope < own) :
      (Regions.mk scope own (own + 1)).Fits
          (.classDecl name generics bases constructors statics instances) ∧
        (Regions.mk scope own (own + 1)).Ordered
          (.classDecl name generics bases constructors statics instances) :=
    ⟨⟨nofun, nofun⟩, ⟨fun _ => less, fun _ => Nat.lt_succ_self own⟩⟩
  have outcome := Performs.unique (Nat.le_refl scope) name.lexeme id
    (.duplicateClass name.lexeme name.span) tree known
  rw [visit, visitForm, bind_apply]
  cases run : bindNew scope name.lexeme id (.duplicateClass name.lexeme name.span) tree with
  | error e tree₁ =>
    rw [run] at outcome
    exact ⟨_, rfl, (suits tree.size known).1, (suits tree.size known).2, Halts.append outcome _⟩
  | ok _ tree₁ =>
    rw [run] at outcome
    obtain ⟨record, runs⟩ := outcome
    have known₁ := Nat.lt_of_lt_of_le known runs.size_le
    have most := Nat.le_succ tree₁.size
    have inConstructors : ∀ m ∈ constructors, PerformsNode tree₁.size m := by
      intro m member
      exact each m (List.mem_append_left _ (List.mem_append_left _ member)) _
    have inStatics : ∀ m ∈ statics, PerformsNode (tree₁.size + 1) m := by
      intro m member
      exact each m (List.mem_append_left _ (List.mem_append_right _ member)) _
    have inInstances : ∀ m ∈ instances, PerformsNode tree₁.size m := by
      intro m member
      exact each m (List.mem_append_right _ member) _
    have first := Performs.visitConstructors most generics inConstructors
    have second := Performs.visitList (Nat.le_refl (tree₁.size + 1)) inStatics
    have third := Performs.visitList most inInstances
    have known₂ (o : Opening ScopeId) : tree₁.size < (tree₁.add o).size := by
      rw [ScopeTree.size_add]
      exact Nat.lt_succ_self _
    have opened : Runs [.opening ⟨.instances, id, scope, tree₁.size, some (tree₁.size + 1)⟩,
        .opening ⟨.statics, id, tree₁.size, tree₁.size + 1, none⟩] tree₁ [] _ :=
      .opening known₁ rfl (.opening (known₂ _) (ScopeTree.size_add ..).symm (.nil _))
    have others := (Performs.bindNames most generics).bind (first.bind (second.bind third))
      ((tree₁.add ⟨.instances, id, scope, tree₁.size, some (tree₁.size + 1)⟩).add
        ⟨.statics, id, tree₁.size, tree₁.size + 1, none⟩) (by simp)
    have outcome := runs.outcome (opened.outcome others)
    have static : (tree₁.openScope .instances id scope).size = tree₁.size + 1 := by
      rw [ScopeTree.openScope_eq_add _ _ _ (by decide), ScopeTree.size_add]
    have suits := suits tree₁.size known₁
    rw [← ScopeTree.openClass_eq_add id known₁, ← static] at outcome
    rw [← static] at suits
    exact ⟨_, rfl, suits.1, suits.2, outcome⟩

/-- The pass performs the steps of every node. -/
theorem performs_node (n : Node) (scope : ScopeId) : PerformsNode scope n := by
  induction n using Node.induction_on_children generalizing scope with
  | step n ih =>
    obtain ⟨id, span, form⟩ := n
    simp only [Node.mem_children] at ih
    have le := Nat.le_refl scope
    -- A body that opens a scope is gone through in the next scope, whichever that is, so what is
    -- below it has to be known for all scopes.
    cases form with
    | variableDecl name type value =>
      have inside : ∀ m ∈ value.toList, PerformsNode scope m := by
        intro m member
        exact ih m (List.mem_append_right _ member) scope
      have first := Performs.plain le name.lexeme id
      exact performsNode_of_closed rfl (first.bind (.visitOption le inside))
    | functionDecl name generics params result body =>
      refine performsNode_of_opening rfl rfl (.function le id span name _) ?_ rfl fun _ => rfl
      intro own _
      have le := Nat.le_refl own
      have inside : ∀ m ∈ body.getD [], PerformsNode own m := by
        intro m member
        exact ih m (List.mem_append_right _ member) own
      have first := Performs.bindNames le generics
      have second := Performs.bindNames le params
      exact first.bind (second.bind (.visitBody le inside))
    | classDecl name generics bases constructors statics instances =>
      apply performsNode_class
      intro m member
      exact ih m (List.mem_append_right _ member)
    | importDecl path rename exposed =>
      exact performsNode_of_closed rfl (.bindImport le id path rename exposed)
    | conditional use condition body otherwise =>
      have first := Performs.visit le (ih condition List.mem_cons_self scope)
      refine performsNode_of_opening rfl rfl first ?_ rfl fun _ => rfl
      intro own below
      have inside : ∀ m ∈ body, PerformsNode own m := by
        intro m member
        exact ih m (.tail _ (List.mem_append_left _ member)) own
      have outside : ∀ m ∈ otherwise.toList, PerformsNode scope m := by
        intro m member
        exact ih m (.tail _ (List.mem_append_right _ member)) scope
      exact (Performs.visitList (Nat.le_refl own) inside).bind (.visitOption below outside)
    | elseBranch use body =>
      refine performsNode_of_opening_first rfl rfl ?_ rfl fun _ => rfl
      intro own _
      have inside : ∀ m ∈ body, PerformsNode own m := by
        intro m member
        exact ih m member own
      exact .visitList (Nat.le_refl own) inside
    | switchCase conditions body =>
      have before : ∀ m ∈ conditions, PerformsNode scope m := by
        intro m member
        exact ih m (List.mem_append_left _ member) scope
      refine performsNode_of_opening rfl rfl (.visitList le before) ?_ rfl fun _ => rfl
      intro own _
      have inside : ∀ m ∈ body, PerformsNode own m := by
        intro m member
        exact ih m (List.mem_append_right _ member) own
      exact .visitList (Nat.le_refl own) inside
    | forEach name type iterable body =>
      have first := Performs.visit le (ih iterable (by simp [Form.parts]) scope)
      refine performsNode_of_opening rfl rfl first ?_ rfl fun _ => rfl
      intro own _
      have le := Nat.le_refl own
      have inside : ∀ m ∈ body, PerformsNode own m := by
        intro m member
        exact ih m (List.mem_append_right _ (.tail _ member)) own
      exact (Performs.plain le name.lexeme id).bind (.visitList le inside)
    | repeatTimes header body | whileLoop header body =>
      have first := Performs.visit le (ih header List.mem_cons_self scope)
      refine performsNode_of_opening rfl rfl first ?_ rfl fun _ => rfl
      intro own _
      have inside : ∀ m ∈ body, PerformsNode own m := by
        intro m member
        exact ih m (.tail _ member) own
      exact .visitList (Nat.le_refl own) inside
    | tryCatch body handler =>
      refine performsNode_of_opening_first rfl rfl ?_ rfl fun _ => rfl
      intro own below
      have inside : ∀ m ∈ body, PerformsNode own m := by
        intro m member
        exact ih m (List.mem_append_left _ member) own
      have outside := ih handler (List.mem_append_right _ List.mem_cons_self) scope
      exact (Performs.visitList (Nat.le_refl own) inside).bind (.visit below outside)
    | catchClause name type body =>
      refine performsNode_of_opening_first rfl rfl ?_ rfl fun _ => rfl
      intro own _
      have le := Nat.le_refl own
      have inside : ∀ m ∈ body, PerformsNode own m := by
        intro m member
        exact ih m (List.mem_append_right _ member) own
      exact (Performs.plain le name.lexeme id).bind (.visitList le inside)
    | constructor params body =>
      refine performsNode_of_opening_first rfl rfl ?_ rfl fun _ => rfl
      intro own _
      have le := Nat.le_refl own
      have inside : ∀ m ∈ body, PerformsNode own m := by
        intro m member
        exact ih m (List.mem_append_right _ member) own
      exact (Performs.bindNames le params).bind (.visitList le inside)
    | assignment first second | binary first _ second | index first second =>
      have left := Performs.visit le (ih first List.mem_cons_self scope)
      have right := Performs.visit le (ih second (.tail _ List.mem_cons_self) scope)
      exact performsNode_of_closed rfl (left.bind right)
    | wrapped inner | async inner | unary _ inner | member inner | throwStmt inner
    | yieldStmt inner | expressionStmt inner | classMember _ inner =>
      exact performsNode_of_closed rfl (.visit le (ih inner List.mem_cons_self scope))
    | call callee generics args =>
      have inside : ∀ m ∈ args, PerformsNode scope m := by
        intro m member
        exact ih m (.tail _ (List.mem_append_right _ member)) scope
      have first := Performs.visit le (ih callee List.mem_cons_self scope)
      exact performsNode_of_closed rfl (first.bind (.visitList le inside))
    | new type args =>
      have inside : ∀ m ∈ args, PerformsNode scope m := by
        intro m member
        exact ih m (.tail _ member) scope
      exact performsNode_of_closed rfl (.visitList le inside)
    | instanceOf value type =>
      exact performsNode_of_closed rfl (.visit le (ih value List.mem_cons_self scope))
    | array body | program body =>
      have inside : ∀ m ∈ body, PerformsNode scope m := by
        intro m member
        exact ih m member scope
      exact performsNode_of_closed rfl (.visitList le inside)
    | switch subject cases =>
      have inside : ∀ m ∈ cases, PerformsNode scope m := by
        intro m member
        exact ih m (.tail _ member) scope
      have first := Performs.visit le (ih subject List.mem_cons_self scope)
      exact performsNode_of_closed rfl (first.bind (.visitList le inside))
    | returnStmt value =>
      have inside : ∀ m ∈ value.toList, PerformsNode scope m := by
        intro m member
        exact ih m member scope
      exact performsNode_of_closed rfl (.visitOption le inside)
    | _ => exact performsNode_of_closed rfl .pure

end ScopeBuild

/-- The scopes of a program have a property if the test of it comes out true. -/
theorem exists_of_any {program : Node} {p : ScopeTree → Bool}
    (test : (buildScopes program).toOption.any p = true) :
    ∃ tree, buildScopes program = .ok tree ∧ p tree = true := by
  cases built : buildScopes program with
  | error e =>
    rw [built] at test
    cases test
  | ok tree =>
    rw [built] at test
    exact ⟨tree, rfl, test⟩

end TekLang
