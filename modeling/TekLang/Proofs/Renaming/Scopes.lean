import TekLang.Proofs.Renaming.Signatures
import TekLang.Proofs.Scope.Steps

/-!
# Building scopes with other names

In a scope tree the names and signatures are replaced as texts. No two of them become the same, so a
table has a name replaced exactly if it has the name, and the pass that builds the scopes does with
other names what it does without, down to the declaration that it fails at.
-/

namespace TekLang

instance : Renamable SymbolEntry := ⟨fun _ => id⟩

instance : Renamable Overload where
  renamed ρ f := ⟨ρ.text f.signature, f.entry⟩

instance : Renamable SymbolTable where
  renamed ρ t := ⟨t.symbols.map (Prod.map ρ.text id), t.registry.map (Prod.map ρ.text (renamed ρ))⟩

instance : Renamable Scope where
  renamed ρ scope := { scope with table := renamed ρ scope.table }

instance : Renamable ScopeTree where
  renamed ρ tree := ⟨tree.scopes.map (renamed ρ)⟩

instance : Renamable ScopeError where
  renamed ρ
    | .duplicateClass name span => .duplicateClass (ρ.text name) span
    | .duplicateFunction signature span => .duplicateFunction (ρ.text signature) span
    | .unexpectedRoot kind => .unexpectedRoot kind

variable {ρ : Renaming}

namespace SymbolTable

@[simp] theorem get?_renamed (t : SymbolTable) (name : String) :
    (renamed ρ t).get? (ρ.text name) = t.get? name :=
  (lookup_map_of_injective ρ.text_injective id t.symbols name).trans Option.map_id'

@[simp] theorem has_renamed (t : SymbolTable) (name : String) :
    (renamed ρ t).has (ρ.text name) = t.has name := by rw [has, get?_renamed, has]

@[simp] theorem hasFunction_renamed (t : SymbolTable) (name : String) :
    (renamed ρ t).hasFunction (ρ.text name) = t.hasFunction name := by
  refine List.any_map.trans ?_
  simp only [Function.comp_def, Prod.map_fst, ρ.text_inj]
  rfl

theorem bind_renamed (t : SymbolTable) (name : String) (entry : SymbolEntry) :
    (renamed ρ t).bind (ρ.text name) entry = renamed ρ (t.bind name entry) := by
  rw [bind, bind, has_renamed]
  split
  · rfl
  · simp [renamed]

theorem register_renamed (t : SymbolTable) (name : String) (overload : Overload) :
    (renamed ρ t).register (ρ.text name) (renamed ρ overload) =
      renamed ρ (t.register name overload) := by
  simp [register, renamed]

end SymbolTable

namespace ScopeTree

@[simp] theorem size_renamed (tree : ScopeTree) : (renamed ρ tree).size = tree.size :=
  Array.size_map ..

@[simp] theorem get?_renamed (tree : ScopeTree) (s : ScopeId) :
    (renamed ρ tree).get? s = (tree.get? s).map (renamed ρ) := Array.getElem?_map ..

@[simp] theorem path_renamed (tree : ScopeTree) (s : ScopeId) :
    (renamed ρ tree).path s = tree.path s := by
  rw [path, path, get?_renamed]
  cases tree.get? s <;> rfl

@[simp] theorem table_renamed (tree : ScopeTree) (s : ScopeId) :
    (renamed ρ tree).table s = renamed ρ (tree.table s) := by
  rw [table, table, get?_renamed]
  cases tree.get? s <;> rfl

@[simp] theorem kind?_renamed (tree : ScopeTree) (s : ScopeId) :
    (renamed ρ tree).kind? s = tree.kind? s := by
  rw [kind?, kind?, get?_renamed, Option.map_map]
  rfl

@[simp] theorem parent?_renamed (tree : ScopeTree) (s : ScopeId) :
    (renamed ρ tree).parent? s = tree.parent? s := by
  rw [parent?, parent?, get?_renamed]
  cases tree.get? s <;> rfl

@[simp] theorem ownScope?_renamed (tree : ScopeTree) (s : ScopeId) (node : NodeId) :
    (renamed ρ tree).ownScope? s node = tree.ownScope? s node := by
  rw [ownScope?, ownScope?, get?_renamed]
  cases tree.get? s <;> rfl

@[simp] theorem statics?_renamed (tree : ScopeTree) (s : ScopeId) :
    (renamed ρ tree).statics? s = tree.statics? s := by
  rw [statics?, statics?, get?_renamed]
  cases tree.get? s <;> rfl

@[simp] theorem skipInstances_renamed (tree : ScopeTree) (path : List ScopeId) :
    (renamed ρ tree).skipInstances path = tree.skipInstances path := by
  fun_induction skipInstances tree path with
  | case1 => rfl
  | case2 => rfl
  | case3 s next outer behind all => rw [skipInstances, kind?_renamed, behind, all]

@[simp] theorem lookupChain_renamed (tree : ScopeTree) (s : ScopeId) :
    (renamed ρ tree).lookupChain s = tree.lookupChain s := by
  rw [lookupChain, path_renamed, skipInstances_renamed, lookupChain]

@[simp] theorem hasSymbol_renamed (tree : ScopeTree) (s : ScopeId) (name : String) :
    (renamed ρ tree).hasSymbol s (ρ.text name) = tree.hasSymbol s name := by
  simp [hasSymbol, symbol?]

@[simp] theorem hasFunction_renamed (tree : ScopeTree) (s : ScopeId) (name : String) :
    (renamed ρ tree).hasFunction s (ρ.text name) = tree.hasFunction s name := by
  simp [hasFunction]

theorem modify_renamed {f g : Scope → Scope}
    (same : ∀ scope, g (renamed ρ scope) = renamed ρ (f scope)) (tree : ScopeTree) (s : ScopeId) :
    (renamed ρ tree).modify s g = renamed ρ (tree.modify s f) := by
  refine ext_get? fun s' => ?_
  rw [get?_modify, get?_renamed, get?_renamed, get?_modify]
  split
  · cases tree.get? s' with
    | none => rfl
    | some scope => exact congrArg some (same scope)
  · rfl

theorem allocate_renamed (tree : ScopeTree) (kind : ScopeKind) (node : NodeId) (parent : ScopeId) :
    (renamed ρ tree).allocate kind node parent = renamed ρ (tree.allocate kind node parent) := by
  rw [allocate, allocate, path_renamed]
  change ScopeTree.mk ((tree.scopes.map (renamed ρ)).push
    (renamed ρ ⟨kind, node, _, .empty, [], none⟩)) = _
  rw [← Array.map_push]
  rfl

theorem openScope_renamed (tree : ScopeTree) (kind : ScopeKind) (node : NodeId) (parent : ScopeId) :
    (renamed ρ tree).openScope kind node parent = renamed ρ (tree.openScope kind node parent) := by
  let f (s : Scope) : Scope := { s with inner := s.inner ++ [(node, tree.size)] }
  rw [openScope, openScope, allocate_renamed, size_renamed]
  exact modify_renamed (f := f) (g := f) (fun _ => rfl) _ _

theorem openStatics_renamed (tree : ScopeTree) (node : NodeId) (ofClass : ScopeId) :
    (renamed ρ tree).openStatics node ofClass = renamed ρ (tree.openStatics node ofClass) := by
  let f (s : Scope) : Scope := { s with statics := some tree.size }
  rw [openStatics, openStatics, allocate_renamed, size_renamed]
  exact modify_renamed (f := f) (g := f) (fun _ => rfl) _ _

theorem bind_renamed (tree : ScopeTree) (s : ScopeId) (name : String) (node : NodeId) :
    (renamed ρ tree).bind s (ρ.text name) node = renamed ρ (tree.bind s name node) := by
  refine modify_renamed ?_ tree s
  intro scope
  exact congrArg (fun table => { scope with table }) (scope.table.bind_renamed name ⟨node, s⟩)

theorem register_renamed (tree : ScopeTree) (s : ScopeId) (name signature : String)
    (node : NodeId) :
    (renamed ρ tree).register s (ρ.text name) (ρ.text signature) node =
      renamed ρ (tree.register s name signature node) := by
  refine modify_renamed ?_ tree s
  intro scope
  exact congrArg (fun table => { scope with table })
    (scope.table.register_renamed name ⟨signature, ⟨node, s⟩⟩)

end ScopeTree

/-! ### The pass -/

namespace Commutes

theorem openScope (kind : ScopeKind) (node : NodeId) (parent : ScopeId) :
    Commutes ρ (ScopeBuild.openScope kind node parent) (ScopeBuild.openScope kind node parent) := by
  intro tree
  change EStateM.Result.ok (renamed ρ tree).size ((renamed ρ tree).openScope kind node parent) = _
  rw [tree.size_renamed, tree.openScope_renamed]
  rfl

theorem openStatics (node : NodeId) (ofClass : ScopeId) :
    Commutes ρ (ScopeBuild.openStatics node ofClass) (ScopeBuild.openStatics node ofClass) := by
  intro tree
  change EStateM.Result.ok (renamed ρ tree).size ((renamed ρ tree).openStatics node ofClass) = _
  rw [tree.size_renamed, tree.openStatics_renamed]
  rfl

theorem bindText (scope : ScopeId) (name : String) (node : NodeId) :
    Commutes ρ (ScopeBuild.bind scope name node) (ScopeBuild.bind scope (ρ.text name) node) := by
  intro tree
  exact congrArg (EStateM.Result.ok ()) (tree.bind_renamed scope name node)

theorem bindNew (scope : ScopeId) (name : String) (node : NodeId) (taken : ScopeError) :
    Commutes ρ (ScopeBuild.bindNew scope name node taken)
      (ScopeBuild.bindNew scope (ρ.text name) node (renamed ρ taken)) := by
  intro tree
  rw [ScopeBuild.bindNew_apply, ScopeBuild.bindNew_apply, tree.table_renamed,
    SymbolTable.has_renamed]
  split
  · rfl
  · exact congrArg (EStateM.Result.ok ()) (tree.bind_renamed scope name node)

theorem register (scope : ScopeId) (name signature : String) (node : NodeId) :
    Commutes ρ (modify (·.register scope name signature node) : ScopeBuild Unit)
      (modify (·.register scope (ρ.text name) (ρ.text signature) node)) := by
  intro tree
  exact congrArg (EStateM.Result.ok ()) (tree.register_renamed scope name signature node)

/-- A name with a token of its own. -/
theorem bindToken (scope : ScopeId) {name : Token}
    (named : name.kind = .identifier ∧ IsName name.lexeme) (node : NodeId) :
    Commutes ρ (ScopeBuild.bind scope name.lexeme node)
      (ScopeBuild.bind scope (renamed ρ name).lexeme node) := by
  rw [Token.lexeme_renamed_eq_text named]
  exact bindText scope name.lexeme node

/-- What is done for each of the trees of a list. -/
theorem forM {f : Node → ScopeBuild Unit} {nodes : List Node}
    (each : ∀ n ∈ nodes, Commutes ρ (f n) (f (renamed ρ n))) :
    Commutes ρ (nodes.forM f) ((renamed ρ nodes).forM f) := by
  induction nodes with
  | nil => exact .pure ()
  | cons n nodes ih =>
    obtain ⟨first, others⟩ := List.forall_mem_cons.1 each
    exact .bind first fun _ => ih others

theorem bindNames (scope : ScopeId) {nodes : List Node} (named : ∀ n ∈ nodes, n.IsNamed) :
    Commutes ρ (ScopeBuild.bindNames scope nodes)
      (ScopeBuild.bindNames scope (renamed ρ nodes)) := by
  refine forM fun n there => ?_
  have named := named n there
  obtain ⟨id, span, form⟩ := n
  rw [Node.renamed_mk]
  cases form with
  | generic | parameter => exact bindToken scope (named.own List.mem_cons_self) id
  | _ => exact .pure ()

theorem bindImport (scope : ScopeId) (node : NodeId) {path : List Token} {rename : Option Token}
    {exposed : List Node}
    (named : ∀ t ∈ path ++ rename.toList, t.kind = .identifier ∧ IsName t.lexeme)
    (listed : ∀ n ∈ exposed, n.IsNamed) :
    Commutes ρ (ScopeBuild.bindImport scope node path rename exposed)
      (ScopeBuild.bindImport scope node (renamed ρ path) (renamed ρ rename)
        (renamed ρ exposed)) := by
  cases rename with
  | some name => exact bindToken scope (named name (by simp)) node
  | none =>
    refine .ite ?_ ?_ (forM fun n there => ?_)
    · change (exposed.map (renamed ρ)).isEmpty = true ↔ _
      rw [List.isEmpty_map]
    · have last : (renamed ρ path).getLast? = path.getLast?.map (renamed ρ) := List.getLast?_map
      rw [last]
      cases is : path.getLast? with
      | none => exact .pure ()
      | some name =>
        exact bindToken scope (named name (List.mem_append_left _ (List.mem_of_getLast? is))) node
    · rw [Node.declaredName?_renamed, Node.id_renamed]
      cases is : n.declaredName? with
      | none => exact .pure ()
      | some name =>
        exact bindToken scope ((listed n there).own (Form.mem_names_of_declaredName is)) n.id

theorem bindFunction (scope : ScopeId) (node : NodeId) (span : Span) {name : Token}
    (named : name.kind = .identifier ∧ IsName name.lexeme) (signature : String) :
    Commutes ρ (ScopeBuild.bindFunction scope node span name signature)
      (ScopeBuild.bindFunction scope node span (renamed ρ name) (ρ.text signature)) := by
  refine .bind (bindNew scope signature node (.duplicateFunction signature span)) fun _ => ?_
  rw [Token.lexeme_renamed_eq_text named]
  exact register scope name.lexeme signature node

theorem bindConstructor (scope : ScopeId) {generics : List Node}
    (generic : ∀ g ∈ generics, g.IsNamed) {n : Node} (named : n.IsNamed) :
    Commutes ρ (ScopeBuild.bindConstructor scope generics n)
      (ScopeBuild.bindConstructor scope (renamed ρ generics) (renamed ρ n)) := by
  obtain ⟨id, span, form⟩ := n
  rw [Node.renamed_mk]
  cases form with
  | constructor params body =>
    have part (p : Node) (there : p ∈ params) : p.IsNamed :=
      named.part (List.mem_append_left _ there)
    have bound := bindText (ρ := ρ) scope (Signature.ofConstructor generics params) id
    rw [← Signature.ofConstructor_renamed generic part] at bound
    exact bound
  | _ => exact .pure ()

section Lists

variable {scope : ScopeId}

theorem visitList {nodes : List Node}
    (each : ∀ n ∈ nodes,
      Commutes ρ (ScopeBuild.visit scope n) (ScopeBuild.visit scope (renamed ρ n))) :
    Commutes ρ (ScopeBuild.visitList scope nodes)
      (ScopeBuild.visitList scope (renamed ρ nodes)) := by
  induction nodes with
  | nil => exact .pure ()
  | cons n nodes ih =>
    obtain ⟨first, others⟩ := List.forall_mem_cons.1 each
    exact .bind first fun _ => ih others

theorem visitOption {n? : Option Node} (each : ∀ n ∈ n?.toList,
      Commutes ρ (ScopeBuild.visit scope n) (ScopeBuild.visit scope (renamed ρ n))) :
    Commutes ρ (ScopeBuild.visitOption scope n?) (ScopeBuild.visitOption scope (renamed ρ n?)) := by
  cases n? with
  | none => exact .pure ()
  | some n => exact each n List.mem_cons_self

theorem visitBody {body : Option (List Node)} (each : ∀ n ∈ body.getD [],
      Commutes ρ (ScopeBuild.visit scope n) (ScopeBuild.visit scope (renamed ρ n))) :
    Commutes ρ (ScopeBuild.visitBody scope body) (ScopeBuild.visitBody scope (renamed ρ body)) := by
  cases body with
  | none => exact .pure ()
  | some nodes => exact visitList each

theorem visitConstructors {generics nodes : List Node} (generic : ∀ g ∈ generics, g.IsNamed)
    (named : ∀ n ∈ nodes, n.IsNamed)
    (each : ∀ n ∈ nodes,
      Commutes ρ (ScopeBuild.visit scope n) (ScopeBuild.visit scope (renamed ρ n))) :
    Commutes ρ (ScopeBuild.visitConstructors scope generics nodes)
      (ScopeBuild.visitConstructors scope (renamed ρ generics) (renamed ρ nodes)) := by
  induction nodes with
  | nil => exact .pure ()
  | cons n nodes ih =>
    obtain ⟨first, others⟩ := List.forall_mem_cons.1 each
    obtain ⟨own, named⟩ := List.forall_mem_cons.1 named
    exact .bind (bindConstructor scope generic own) fun _ => .bind first fun _ => ih named others

end Lists

section Declarations

variable {id : NodeId} {span : Span} {name : Token} {generics : List Node}

theorem visitFunction {params : List Node} {result : Option Node} {body : Option (List Node)}
    (named : Node.IsNamed ⟨id, span, .functionDecl name generics params result body⟩)
    (below : ∀ m ∈ (Form.functionDecl name generics params result body).parts, ∀ scope,
      Commutes ρ (ScopeBuild.visit scope m) (ScopeBuild.visit scope (renamed ρ m)))
    (scope : ScopeId) :
    Commutes ρ
      (ScopeBuild.visitForm scope id span (.functionDecl name generics params result body))
      (ScopeBuild.visitForm scope id span
        (renamed ρ (.functionDecl name generics params result body : Form Node))) := by
  have own := named.own List.mem_cons_self
  have generic (g : Node) (there : g ∈ generics) : g.IsNamed :=
    named.part (by simp [Form.parts, there])
  have parameter (p : Node) (there : p ∈ params) : p.IsNamed :=
    named.part (by simp [Form.parts, there])
  have bound := bindFunction (ρ := ρ) scope id span own
    (Signature.ofFunction name generics params)
  rw [← Signature.ofFunction_renamed generic parameter own] at bound
  refine .bind bound fun _ => .bind (openScope _ id scope) fun inner => ?_
  refine .bind (bindNames inner generic) fun _ => .bind (bindNames inner parameter) fun _ => ?_
  exact visitBody fun m there => below m (List.mem_append_right _ there) inner

theorem visitClass {bases constructors statics instances : List Node}
    (named : Node.IsNamed
      ⟨id, span, .classDecl name generics bases constructors statics instances⟩)
    (below : ∀ m ∈ (Form.classDecl name generics bases constructors statics instances).parts,
      ∀ scope, Commutes ρ (ScopeBuild.visit scope m) (ScopeBuild.visit scope (renamed ρ m)))
    (scope : ScopeId) :
    Commutes ρ
      (ScopeBuild.visitForm scope id span
        (.classDecl name generics bases constructors statics instances))
      (ScopeBuild.visitForm scope id span
        (renamed ρ
          (.classDecl name generics bases constructors statics instances : Form Node))) := by
  have own := named.own List.mem_cons_self
  have generic (g : Node) (there : g ∈ generics) : g.IsNamed :=
    named.part (by simp [Form.parts, there])
  have building (m : Node) (there : m ∈ constructors) : m.IsNamed :=
    named.part (by simp [Form.parts, there])
  have bound := bindNew (ρ := ρ) scope name.lexeme id (.duplicateClass name.lexeme name.span)
  have again : (renamed ρ (.duplicateClass name.lexeme name.span : ScopeError)) =
      .duplicateClass (ρ.text name.lexeme) name.span := rfl
  rw [again, ← Token.lexeme_renamed_eq_text own] at bound
  refine .bind bound fun _ => .bind (openScope _ id scope) fun inner => ?_
  refine .bind (openStatics id inner) fun static => .bind (bindNames inner generic) fun _ => ?_
  refine .bind (visitConstructors generic building fun m there => below m ?_ inner) fun _ => ?_
  · simp [Form.parts, there]
  refine .bind (visitList fun m there => below m ?_ static) fun _ => visitList fun m there => ?_
  · simp [Form.parts, there]
  · exact below m (by simp [Form.parts, there]) inner

end Declarations

/-- The pass does at a node with other names what it does at the node. -/
theorem visit {n : Node} (named : n.IsNamed) (scope : ScopeId) :
    Commutes ρ (ScopeBuild.visit scope n) (ScopeBuild.visit scope (renamed ρ n)) := by
  induction n using Node.induction_on_children generalizing scope with
  | step n ih =>
    have below (m : Node) (part : m ∈ n.form.parts) (scope : ScopeId) :
        Commutes ρ (ScopeBuild.visit scope m) (ScopeBuild.visit scope (renamed ρ m)) :=
      ih m (Node.mem_children.2 part) (named.part part) scope
    clear ih
    obtain ⟨id, span, form⟩ := n
    rw [Node.renamed_mk]
    change Commutes ρ (ScopeBuild.visitForm scope id span form)
      (ScopeBuild.visitForm scope id span (renamed ρ form))
    cases form with
    | variableDecl name type value =>
      refine .bind (bindToken scope (named.own List.mem_cons_self) id) fun _ => visitOption ?_
      exact fun m there => below m (List.mem_append_right _ there) scope
    | functionDecl name generics params result body => exact visitFunction named below scope
    | classDecl name generics bases constructors statics instances =>
      exact visitClass named below scope
    | importDecl path rename exposed =>
      exact bindImport scope id (fun t there => named.own there) fun m there => named.part there
    | conditional use condition body otherwise =>
      refine .bind (below condition List.mem_cons_self scope) fun _ => ?_
      refine .bind (openScope _ id scope) fun inner => ?_
      refine .bind (visitList fun m there => ?_) fun _ => ?_
      · exact below m (.tail _ (List.mem_append_left _ there)) inner
      · exact visitOption fun m there => below m (.tail _ (List.mem_append_right _ there)) scope
    | elseBranch use body =>
      refine .bind (openScope _ id scope) fun inner => visitList fun m there => ?_
      exact below m there inner
    | switchCase conditions body =>
      refine .bind (visitList fun m there => ?_) fun _ => ?_
      · exact below m (List.mem_append_left _ there) scope
      refine .bind (openScope _ id scope) fun inner => visitList fun m there => ?_
      exact below m (List.mem_append_right _ there) inner
    | forEach name type iterable body =>
      have own := named.own List.mem_cons_self
      refine .bind (below iterable (by simp [Form.parts]) scope) fun _ => ?_
      refine .bind (openScope _ id scope) fun inner => .bind (bindToken inner own id) fun _ => ?_
      exact visitList fun m there => below m (List.mem_append_right _ (.tail _ there)) inner
    | repeatTimes header body | whileLoop header body =>
      refine .bind (below header List.mem_cons_self scope) fun _ => ?_
      refine .bind (openScope _ id scope) fun inner => visitList fun m there => ?_
      exact below m (.tail _ there) inner
    | tryCatch body handler =>
      refine .bind (openScope _ id scope) fun inner => ?_
      refine .bind (visitList fun m there => ?_) fun _ => ?_
      · exact below m (List.mem_append_left _ there) inner
      · exact below handler (List.mem_append_right _ List.mem_cons_self) scope
    | catchClause name type body =>
      have own := named.own List.mem_cons_self
      refine .bind (openScope _ id scope) fun inner => .bind (bindToken inner own id) fun _ => ?_
      exact visitList fun m there => below m (List.mem_append_right _ there) inner
    | constructor params body =>
      have parameter (p : Node) (there : p ∈ params) : p.IsNamed :=
        named.part (List.mem_append_left _ there)
      refine .bind (openScope _ id scope) fun inner => .bind (bindNames inner parameter) fun _ => ?_
      exact visitList fun m there => below m (List.mem_append_right _ there) inner
    | assignment first second | binary first _ second | index first second =>
      exact .bind (below first List.mem_cons_self scope) fun _ =>
        below second (.tail _ List.mem_cons_self) scope
    | wrapped inner | async inner | unary _ inner | member inner | throwStmt inner
    | yieldStmt inner | expressionStmt inner | classMember _ inner | instanceOf inner =>
      exact below inner List.mem_cons_self scope
    | call callee generics args =>
      refine .bind (below callee List.mem_cons_self scope) fun _ => visitList fun m there => ?_
      exact below m (.tail _ (List.mem_append_right _ there)) scope
    | new type args => exact visitList fun m there => below m (.tail _ there) scope
    | array body | program body => exact visitList fun m there => below m there scope
    | switch subject cases =>
      refine .bind (below subject List.mem_cons_self scope) fun _ => visitList fun m there => ?_
      exact below m (.tail _ there) scope
    | returnStmt value => exact visitOption fun m there => below m there scope
    | _ => exact .pure ()

end Commutes

instance {ε α : Type} [Renamable ε] [Renamable α] : Renamable (Except ε α) where
  renamed ρ
    | .ok a => .ok (renamed ρ a)
    | .error e => .error (renamed ρ e)

/-- The scopes of a program with other names are its scopes with other names in their tables, and
    where it has none, for two declarations are in conflict, the same declaration is refused. -/
theorem buildScopes_renamed {root : Node} (named : root.IsNamed) :
    buildScopes (renamed ρ root) = renamed ρ (buildScopes root) := by
  obtain ⟨id, span, form⟩ := root
  rw [Node.renamed_mk]
  cases form with
  | program body =>
    have visits : Commutes ρ (ScopeBuild.visitList ScopeTree.root body)
        (ScopeBuild.visitList ScopeTree.root (renamed ρ body)) :=
      .visitList fun m there => .visit (named.part there) _
    have empty : renamed ρ (ScopeTree.ofProgram id) = .ofProgram id := by
      simp [renamed, ScopeTree.ofProgram, SymbolTable.empty]
    have run := visits (.ofProgram id)
    rw [empty] at run
    have program : renamed ρ (Form.program body) = .program (renamed ρ body) := rfl
    rw [program]
    unfold buildScopes EStateM.run
    dsimp only
    rw [run]
    cases ScopeBuild.visitList ScopeTree.root body (.ofProgram id) <;> rfl
  | _ =>
    exact congrArg (fun kind => Except.error (ScopeError.unexpectedRoot kind)) (Form.kind_renamed _)

end TekLang
