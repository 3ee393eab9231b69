import TekLang.Proofs.Grammar.Nesting
import TekLang.Proofs.Scope.Conflict
import TekLang.Proofs.Scope.Lookup

/-!
# What the tables hold

The table of a scope against the text alone. `Node.boundIn` lists what is bound in a region of a
node: the declarations that stand there, functions under their signatures, and for a class its
constructors. The table of the scope of that region has an entry for each of these texts and for no
other, made by the first in the text that is bound under it, and its functions are those declared in
the region.
-/

namespace TekLang

/-- A text that is bound in a region, the node that it is bound to and where that is declared. -/
structure Bound where
  text : String
  node : Node
  place : Position

namespace Declaration

/-- A function is bound under its signature and anything else under its name. -/
def text (d : Declaration) : String :=
  match d.sort with
  | .plain | .ofClass => d.name.lexeme
  | .ofFunction generics params => Signature.ofFunction d.name generics params

def bound (d : Declaration) : Bound := ⟨d.text, d.node, d.name.span.start⟩

/-- The function that is registered for a declaration made in a scope. -/
def overload? (scope : ScopeId) (d : Declaration) : Option Overload :=
  match d.sort with
  | .plain | .ofClass => none
  | .ofFunction generics params =>
    some ⟨Signature.ofFunction d.name generics params, ⟨d.node.id, scope⟩⟩

end Declaration

/-- What a constructor of a class with the given generics is bound under. -/
def Bound.ofConstructor? (generics : List Node) (n : Node) : Option Bound :=
  match n.form with
  | .constructor params _ => some ⟨Signature.ofConstructor generics params, n, n.start⟩
  | _ => none

namespace Node

/-- The constructors that are bound in a region of a node: those of a class, with its instances. -/
def constructorsIn (n : Node) (region : Region) : List Bound :=
  match region, n.form with
  | .own, .classDecl _ generics _ constructors _ _ =>
    constructors.filterMap (Bound.ofConstructor? generics)
  | _, _ => []

/-- What is bound in a region of a node. -/
def boundIn (n : Node) (region : Region) : List Bound :=
  (n.declarationsIn region).map Declaration.bound ++ n.constructorsIn region

end Node

/-- Which regions of the nodes of a program are scopes of their own, and of what kind. -/
inductive Opens (program : Node) : Node → Region → ScopeKind → Prop
  | program : Opens program program .around .program
  | own {n kind} (opens : n.form.opens? = some kind) : Opens program n .own kind
  | statics {n} (opens : n.form.opensStatics = true) : Opens program n .statics .statics

/-- A table holds what is bound in a region of a node, each text for the first that it is bound to,
    and the functions that are declared there. -/
structure SymbolTable.Holds (t : SymbolTable) (s : ScopeId) (n : Node) (region : Region) :
    Prop where
  names : ∀ name, t.has name = true ↔ ∃ b ∈ n.boundIn region, b.text = name
  first : ∀ name entry, t.get? name = some entry → entry.scope = s ∧
    ∃ b ∈ n.boundIn region, b.text = name ∧ b.node.id = entry.node ∧
      ∀ other ∈ n.boundIn region, other.text = name → other = b ∨ b.place < other.place
  functions : ∀ name, t.overloads name =
    ((n.declarationsIn region).filter (·.name.lexeme = name)).filterMap (·.overload? s)

/-- A scope is that of a region of a node and has what is bound there. -/
structure Scope.IsOf (scope : Scope) (s : ScopeId) (program n : Node) (region : Region) : Prop where
  opens : Opens program n region scope.kind
  node : scope.node = n.id
  holds : scope.table.Holds s n region

/-! What bindings leave in a table. -/

/-- What is bound to what. -/
def Bound.pair (b : Bound) : String × NodeId := (b.text, b.node.id)

namespace Binding

/-- The node that a binding is made for. -/
def node : Binding → NodeId
  | plain _ node | unique _ node _ | function _ _ node _ => node

/-- What is bound to what. -/
def pair (b : Binding) : String × NodeId := (b.key, b.node)

/-- What a binding registers under a name. -/
def registered (scope : ScopeId) (name : String) : Binding → List Overload
  | function own signature node _ => if own = name then [⟨signature, ⟨node, scope⟩⟩] else []
  | _ => []

end Binding

namespace SymbolTable

theorem get?_enter (t : SymbolTable) (scope : ScopeId) (b : Binding) (name : String) :
    (t.enter scope b).get? name =
      (t.get? name).or (if b.key = name then some ⟨b.node, scope⟩ else none) := by
  cases b with
  | plain | unique => exact get?_bind ..
  | function =>
    rw [enter, get?_register]
    exact get?_bind ..

/-- What was bound first stays, then comes the first binding that is entered under the name. -/
theorem get?_foldl (scope : ScopeId) (bs : List Binding) (t : SymbolTable) (name : String) :
    (bs.foldl (·.enter scope) t).get? name =
      (t.get? name).or ((bs.find? (·.key = name)).map fun b => ⟨b.node, scope⟩) := by
  induction bs generalizing t with
  | nil => simp
  | cons b bs ih =>
    rw [List.foldl_cons, ih, get?_enter, List.find?_cons, Option.or_assoc]
    by_cases same : b.key = name
    · simp [same]
    · simp [same]

theorem overloads_enter (t : SymbolTable) (scope : ScopeId) (b : Binding) (name : String) :
    (t.enter scope b).overloads name = t.overloads name ++ b.registered scope name := by
  cases b with
  | plain | unique =>
    rw [enter, overloads_bind]
    exact (List.append_nil _).symm
  | function =>
    rw [enter, overloads_register, overloads_bind]
    rfl

theorem overloads_foldl (scope : ScopeId) (bs : List Binding) (t : SymbolTable) (name : String) :
    (bs.foldl (·.enter scope) t).overloads name =
      t.overloads name ++ bs.flatMap (·.registered scope name) := by
  induction bs generalizing t with
  | nil => simp
  | cons b bs ih => rw [List.foldl_cons, ih, overloads_enter, List.append_assoc, List.flatMap_cons]

end SymbolTable

/-! Of the bindings in a region those of signatures are the constructors'. -/

/-- The bindings of the signatures of constructors. -/
def signaturesOf (bs : List Binding) : List Binding := bs.filter (·.isSignature)

@[simp] theorem signaturesOf_append (bs bs' : List Binding) :
    signaturesOf (bs ++ bs') = signaturesOf bs ++ signaturesOf bs' := List.filter_append ..

@[simp] theorem signaturesOf_constructor (generics params : List Node) (node : NodeId)
    (bs : List Binding) :
    signaturesOf (.plain (Signature.ofConstructor generics params) node :: bs) =
      .plain (Signature.ofConstructor generics params) node :: signaturesOf bs :=
  List.filter_cons_of_pos (isSignature_constructor generics params node)

theorem signaturesOf_eq_nil_iff {bs : List Binding} :
    signaturesOf bs = [] ↔ ∀ b ∈ bs, b.isSignature = false := by
  simp [signaturesOf]

theorem declaredOf_append_signaturesOf (bs : List Binding) :
    (declaredOf bs ++ signaturesOf bs).Perm bs :=
  List.perm_append_comm.trans (List.filter_append_perm ..)

/-- A node makes bindings for what it declares, and besides them only a class does, for its
    constructors. -/
theorem of_enter_mem_plan {n : Node} {region : Region} {b : Binding}
    (planned : .enter region b ∈ n.plan) :
    b ∈ (n.declarations region).map Declaration.binding ∨
      region = .own ∧ n.form.opensStatics = true := by
  obtain ⟨id, span, form⟩ := n
  cases form with
  | classDecl name generics bases constructors statics instances =>
    cases region <;> simp [Node.plan, Node.steps, Regions.names] at planned
    · exact .inl (planned ▸ List.mem_cons_self)
    · exact .inr ⟨rfl, rfl⟩
  | importDecl path rename exposed =>
    left
    cases region <;> simp [Node.plan, Node.steps, Regions.names] at planned
    rwa [importBindings_eq id span] at planned
  | _ =>
    left
    cases region <;> simp [Node.plan, Node.steps, Regions.names, openOwn] at planned
    all_goals
      simp [Node.declarations, parameterBindings_eq, Declaration.binding] at planned ⊢
      exact planned

theorem not_isSignature_of_enter {n : Node} (orderly : n.IsOrderly) {region : Region} {b : Binding}
    (planned : .enter region b ∈ n.plan) (other : ¬ (region = .own ∧ n.form.opensStatics = true)) :
    b.isSignature = false := by
  rcases of_enter_mem_plan planned with declared | same
  · obtain ⟨d, there, rfl⟩ := List.mem_map.1 declared
    obtain ⟨under, named⟩ := Node.of_mem_declarations there
    exact isSignature_binding (orderly.plain d.node under d.name named)
  · exact absurd same other

/-- Only with the instances of a class signatures are bound. -/
theorem signaturesOf_eq_nil {n : Node} (orderly : n.IsOrderly) {region : Region}
    (other : ¬ (region = .own ∧ n.form.opensStatics = true)) :
    signaturesOf (n.bindingsIn region) = [] := by
  induction n using Node.induction_on_children generalizing region with
  | step n ih =>
    rw [signaturesOf_eq_nil_iff]
    intro b made
    rcases Node.exists_bindingsIn.1 ⟨b, made, rfl⟩ with
      ⟨_, planned, rfl⟩ | ⟨m, visits, _, made, rfl⟩
    · exact not_isSignature_of_enter orderly planned other
    · have below := Node.mem_children_of_visit_mem_plan visits
      have under := Node.mem_descendants_of_child below m.mem_descendants_self
      have silent : signaturesOf (m.bindingsIn .around) = [] :=
        ih m below (orderly.of_mem_descendants under) nofun
      rw [Node.introduced_eq] at made
      exact signaturesOf_eq_nil_iff.1 silent b made

theorem signaturesOf_constructors {generics ns : List Node}
    (each : ∀ m ∈ ns, signaturesOf m.introduced = []) :
    signaturesOf ((constructorSteps .own generics ns).flatMap (ScopeStep.makes Region.own)) =
      (ns.filterMap (Bound.ofConstructor? generics)).map fun b => .plain b.text b.node.id := by
  induction ns with
  | nil => rfl
  | cons n ns ih =>
    obtain ⟨first, others⟩ := List.forall_mem_cons.1 each
    have others := ih others
    unfold constructorSteps at others ⊢
    rw [List.flatMap_cons, List.flatMap_append, signaturesOf_append, others, List.flatMap_append,
      makes_enterAll, makes_visitAll, List.filterMap_cons]
    obtain ⟨id, span, form⟩ := n
    cases form with
    | constructor params body => simp [constructorBindings, Bound.ofConstructor?, first]
    | _ => simp [constructorBindings, Bound.ofConstructor?, first]

/-- The signatures that are bound in a region are those of the constructors that are bound there. -/
theorem signaturesOf_bindingsIn {n : Node} (orderly : n.IsOrderly) (region : Region) :
    signaturesOf (n.bindingsIn region) =
      (n.constructorsIn region).map fun b => .plain b.text b.node.id := by
  by_cases within : region = .own ∧ n.form.opensStatics = true
  · obtain ⟨rfl, opens⟩ := within
    have below {m : Node} (part : m ∈ n.form.parts) : signaturesOf m.introduced = [] := by
      have under := Node.mem_descendants_of_child (Node.mem_children.2 part) m.mem_descendants_self
      rw [Node.introduced_eq]
      exact signaturesOf_eq_nil (orderly.of_mem_descendants under) nofun
    obtain ⟨id, span, form⟩ := n
    cases form with
    | classDecl name generics bases constructors statics instances =>
      simp only [Form.parts, List.mem_append] at below
      have constructed : ∀ m ∈ constructors, signaturesOf m.introduced = [] := by
        intro m there
        exact below (.inr (.inl (.inl there)))
      have own : signaturesOf (instances.flatMap Node.introduced) = [] := by
        rw [signaturesOf_eq_nil_iff]
        intro b made
        obtain ⟨m, there, made⟩ := List.mem_flatMap.1 made
        exact signaturesOf_eq_nil_iff.1 (below (.inr (.inr there))) b made
      have parameters : signaturesOf (parameterBindings generics) = [] := by
        rw [signaturesOf_eq_nil_iff, parameterBindings_eq]
        intro b made
        obtain ⟨d, there, rfl⟩ := List.mem_map.1 made
        have declared : d ∈ Node.declarations
            ⟨id, span, .classDecl name generics bases constructors statics instances⟩ .own := there
        obtain ⟨under, named⟩ := Node.of_mem_declarations declared
        exact isSignature_binding (orderly.plain d.node under d.name named)
      simp [Node.bindingsIn, Node.plan, Node.steps, Regions.names, ScopeStep.makes, parameters,
        signaturesOf_constructors constructed, own, Node.constructorsIn]
    | _ => cases opens
  · rw [signaturesOf_eq_nil orderly within]
    obtain ⟨id, span, form⟩ := n
    cases form with
    | classDecl =>
      cases region with
      | around | statics => rfl
      | own => exact absurd ⟨rfl, rfl⟩ within
    | _ => cases region <;> rfl

/-! Both sorts of binding are made in the order of the text. -/

/-- Children that lie one behind another start one behind another. -/
theorem Node.Nests.starts {n : Node} (nests : n.Nests) :
    n.children.Pairwise (·.start < ·.start) := by
  refine nests.apart.imp_of_mem ?_
  intro a b there _ behind
  exact Position.lt_of_lt_of_le (nests.proper a there) behind

/-- The constructors of a class are bound in the order of the text. -/
theorem constructorsIn_inOrder (source : String) {n : Node}
    (below : n ∈ (parse (lex source).tokens).program.descendants) (region : Region) :
    (n.constructorsIn region).Pairwise (·.place < ·.place) := by
  have starts := (parse_nests (inTextOrder_lex source) n below).starts
  have arranged := parse_arranges source n below
  have sides := (parse_isRegular (lex source).tokens).sides n below
  obtain ⟨id, span, form⟩ := n
  cases form with
  | classDecl name generics bases constructors statics instances =>
    cases region with
    | around | statics => exact .nil
    | own =>
      obtain ⟨among, -⟩ := sections_of_arranges sides arranged
      have part : constructors.Sublist
          (inSourceOrder Node.start (constructors ++ statics ++ instances)) := by
        conv_lhs => rw [among]
        exact List.filter_sublist
      have part := part.trans (List.sublist_append_right (generics ++ bases) _)
      simp only [Node.constructorsIn]
      rw [List.pairwise_filterMap]
      refine (starts.sublist part).imp ?_
      intro a b less first made second made'
      unfold Bound.ofConstructor? at made made'
      split at made <;> cases made
      split at made' <;> cases made'
      exact less
  | _ => cases region <;> exact .nil

/-- If some of the bindings are those of what is bound, in the order of the text, then the first
    of them under a key is that of the first that is bound under the text. -/
theorem exists_first {before after : List Binding} {b : Binding} {keeps : Binding → Bool}
    {cs : List Bound}
    (made : ((before ++ b :: after).filter keeps).map Binding.pair = cs.map Bound.pair)
    (ordered : cs.Pairwise (·.place < ·.place)) (kept : keeps b = true)
    (first : ∀ a ∈ before, a.key ≠ b.key) :
    ∃ c ∈ cs, c.text = b.key ∧ c.node.id = b.node ∧
      ∀ other ∈ cs, other.text = b.key → other = c ∨ c.place < other.place := by
  rw [List.filter_append, List.filter_cons_of_pos kept, List.map_append, List.map_cons] at made
  obtain ⟨earlier, others, rfl, made_before, made_behind⟩ := List.map_eq_append_iff.1 made.symm
  obtain ⟨c, later, rfl, same, -⟩ := List.map_eq_cons_iff.1 made_behind
  obtain ⟨text, node⟩ := Prod.mk.inj same
  refine ⟨c, by simp, text, node, ?_⟩
  intro other there named
  rcases List.mem_append.1 there with there | there
  · have among := List.mem_map_of_mem (f := Bound.pair) there
    rw [made_before] at among
    obtain ⟨a, there', same⟩ := List.mem_map.1 among
    have key : a.key = other.text := congrArg Prod.fst same
    exact absurd (key.trans named) (first a (List.mem_of_mem_filter there'))
  · have behind := List.pairwise_cons.1 (List.pairwise_append.1 ordered).2.1
    rcases List.mem_cons.1 there with rfl | there
    · exact .inl rfl
    · exact .inr (behind.1 other there)

@[simp] theorem Declaration.key_binding (d : Declaration) : d.binding.key = d.text := by
  obtain ⟨name, node, sort⟩ := d
  cases sort <;> rfl

@[simp] theorem Declaration.pair_binding (d : Declaration) : d.binding.pair = d.bound.pair := by
  obtain ⟨name, node, sort⟩ := d
  cases sort <;> rfl

/-- What a declaration registers under a name: a function of that name. -/
theorem Declaration.registered_binding (d : Declaration) (scope : ScopeId) (name : String) :
    d.binding.registered scope name =
      if d.name.lexeme = name then (d.overload? scope).toList else [] := by
  obtain ⟨own, node, sort⟩ := d
  cases sort <;> simp [binding, Binding.registered, overload?]

theorem registered_of_isSignature {b : Binding} (signature : b.isSignature = true) (scope : ScopeId)
    (name : String) : b.registered scope name = [] := by
  cases b with
  | function => cases signature
  | plain | unique => rfl

/-- Only declarations register functions. -/
theorem registered_declaredOf (bs : List Binding) (scope : ScopeId) (name : String) :
    (declaredOf bs).flatMap (·.registered scope name) = bs.flatMap (·.registered scope name) := by
  unfold declaredOf
  induction bs with
  | nil => rfl
  | cons b bs ih =>
    rw [List.flatMap_cons, List.filter_cons]
    cases signature : b.isSignature with
    | true => simpa [registered_of_isSignature signature] using ih
    | false => simpa using ih

theorem registered_map_binding (ds : List Declaration) (scope : ScopeId) (name : String) :
    (ds.map Declaration.binding).flatMap (·.registered scope name) =
      (ds.filter (·.name.lexeme = name)).filterMap (·.overload? scope) := by
  induction ds with
  | nil => rfl
  | cons d ds ih =>
    rw [List.map_cons, List.flatMap_cons, ih, d.registered_binding, List.filter_cons]
    by_cases same : d.name.lexeme = name
    · cases function : d.overload? scope <;> simp [same, function]
    · simp [same]

section Tables

variable {n : Node}

theorem declared_pairs (regular : n.IsRegular) (orderly : n.IsOrderly) (region : Region) :
    (declaredOf (n.bindingsIn region)).map Binding.pair =
      ((n.declarationsIn region).map Declaration.bound).map Bound.pair := by
  rw [Node.declaredOf_bindingsIn regular orderly]
  simp [Function.comp_def]

theorem signed_pairs (orderly : n.IsOrderly) (region : Region) :
    (signaturesOf (n.bindingsIn region)).map Binding.pair =
      (n.constructorsIn region).map Bound.pair := by
  rw [signaturesOf_bindingsIn orderly]
  exact List.map_map

/-- A region has bindings for the texts that are bound in it. -/
theorem exists_key_iff (regular : n.IsRegular) (orderly : n.IsOrderly) {region : Region}
    {text : String} :
    (∃ b ∈ n.bindingsIn region, b.key = text) ↔ ∃ b ∈ n.boundIn region, b.text = text := by
  have pairs := (declaredOf_append_signaturesOf (n.bindingsIn region)).map Binding.pair
  rw [List.map_append, declared_pairs regular orderly, signed_pairs orderly,
    ← List.map_append] at pairs
  have texts := (pairs.map Prod.fst).mem_iff (a := text)
  rw [List.map_map, List.map_map] at texts
  exact (List.mem_map.symm.trans texts.symm).trans List.mem_map

variable (source : String) (below : n ∈ (parse (lex source).tokens).program.descendants)
  (region : Region)

include below in
/-- What is declared is bound under no signature of a constructor. -/
theorem text_ne_of_mem_constructorsIn {b c : Bound}
    (declared : b ∈ (n.declarationsIn region).map Declaration.bound)
    (constructs : c ∈ n.constructorsIn region) : b.text ≠ c.text := by
  intro same
  have orderly := (parse_isOrderly source).of_mem_descendants below
  obtain ⟨d, declares, rfl⟩ := List.mem_map.1 declared
  have proper := isProper_of_mem_declarationsIn source below d declares
  have made := List.mem_map_of_mem (f := fun b : Bound => Binding.plain b.text b.node.id) constructs
  rw [← signaturesOf_bindingsIn orderly] at made
  have differs := key_ne_of_isSignature (List.mem_filter.1 made).2 proper
  exact differs (same.symm.trans d.key_binding.symm)

include below in
/-- A table in which the bindings made in a region are entered holds what is bound in it. -/
theorem holds_of_bindingsIn (s : ScopeId) :
    SymbolTable.Holds ((n.bindingsIn region).foldl (·.enter s) .empty) s n region := by
  have regular := (parse_isRegular (lex source).tokens).of_mem_descendants below
  have orderly := (parse_isOrderly source).of_mem_descendants below
  refine ⟨?_, ?_, ?_⟩
  · intro name
    rw [SymbolTable.has_foldl, or_iff_right (show ¬ SymbolTable.empty.has name = true from nofun)]
    exact exists_key_iff regular orderly
  · intro name entry found
    rw [SymbolTable.get?_foldl, show SymbolTable.empty.get? name = none from rfl,
      Option.none_or] at found
    obtain ⟨b, is, rfl⟩ := Option.map_eq_some_iff.1 found
    obtain ⟨named, before, after, parted, differ⟩ := List.find?_eq_some_iff_append.1 is
    obtain rfl : b.key = name := by simpa using named
    have differ : ∀ a ∈ before, a.key ≠ b.key := by simpa using differ
    refine ⟨rfl, ?_⟩
    -- The binding is that of a constructor or of a declaration; no other sort has its text.
    cases signature : b.isSignature with
    | true =>
      have made := signed_pairs orderly region
      rw [parted] at made
      have ordered := constructorsIn_inOrder source below region
      obtain ⟨c, there, text, node, first⟩ := exists_first made ordered signature differ
      refine ⟨c, List.mem_append_right _ there, text, node, ?_⟩
      intro other there' same
      rcases List.mem_append.1 there' with there' | there'
      · have differs := text_ne_of_mem_constructorsIn source below region there' there
        exact absurd (same.trans text.symm) differs
      · exact first other there' same
    | false =>
      have made := declared_pairs regular orderly region
      rw [parted] at made
      have ordered := (declarationsIn_inOrder source below region).map Declaration.bound
        (S := (·.place < ·.place)) fun _ _ less => less
      have kept : (! b.isSignature) = true := by rw [signature]; rfl
      obtain ⟨c, there, text, node, first⟩ := exists_first made ordered kept differ
      refine ⟨c, List.mem_append_left _ there, text, node, ?_⟩
      intro other there' same
      rcases List.mem_append.1 there' with there' | there'
      · exact first other there' same
      · have differs := text_ne_of_mem_constructorsIn source below region there there'
        exact absurd (text.trans same.symm) differs
  · intro name
    rw [SymbolTable.overloads_foldl, ← registered_declaredOf,
      Node.declaredOf_bindingsIn regular orderly, registered_map_binding]
    rfl

end Tables

/-! The scopes of a text are those of the regions of its nodes. -/

theorem not_isDetail_of_opens {program n : Node} {region : Region} {kind : ScopeKind}
    (opens : Opens program n region kind) (inner : region ≠ .around) :
    ¬ n.form.isDetail = true := by
  intro detail
  cases opens with
  | program => exact absurd rfl inner
  | own opens =>
    obtain ⟨id, span, form⟩ := n
    cases form <;> simp [Form.isDetail, Form.opens?] at detail opens
  | statics opens =>
    obtain ⟨id, span, form⟩ := n
    cases form <;> simp [Form.isDetail, Form.opensStatics] at detail opens

namespace Builds

variable {source : String} {tree : ScopeTree} {record : List (Node × Regions ScopeId)} {n : Node}
  {r : Regions ScopeId} {region : Region} {scope : Scope} {kind : ScopeKind}

theorem table_of_get? {s : ScopeId} (is : tree.get? s = some scope) :
    scope.table = tree.table s := by
  rw [ScopeTree.table, is]
  rfl

/-- The first scope is that of the program. -/
theorem root_isOf (builds : Builds (parse (lex source).tokens).program tree record) :
    ∃ scope, tree.get? ScopeTree.root = some scope ∧ scope.IsOf ScopeTree.root
      (parse (lex source).tokens).program (parse (lex source).tokens).program .around := by
  obtain ⟨scope, is, keeps⟩ := builds.runs.grows ScopeTree.root _ rfl
  have below := Node.mem_descendants_self (parse (lex source).tokens).program
  have holds := holds_of_bindingsIn source below .around ScopeTree.root
  rw [← builds.table_root, ← table_of_get? is] at holds
  have kind : scope.kind = .program := keeps.kind
  exact ⟨scope, is, kind ▸ .program, keeps.node, holds⟩

/-- What a node of the record has opened for a region is the scope of that region. -/
theorem opened_isOf (builds : Builds (parse (lex source).tokens).program tree record)
    (there : (n, r) ∈ record) (opens : Opens (parse (lex source).tokens).program n region kind)
    (inner : region ≠ .around) :
    ∃ scope, tree.get? (r.get region) = some scope ∧
      scope.IsOf (r.get region) (parse (lex source).tokens).program n region := by
  have holds := holds_of_bindingsIn source (builds.mem_descendants there) region (r.get region)
  have found : n.form.Has region ∧ ∃ scope, tree.get? (r.get region) = some scope ∧
      scope.kind = kind ∧ scope.node = n.id := by
    cases opens with
    | program => exact absurd rfl inner
    | own opens =>
      have opened := builds.has_opened there (own_mem_openings r opens)
      obtain ⟨scope, is, kind, node, -⟩ := opened.found
      refine ⟨?_, scope, is, kind, node⟩
      rw [Form.Has, opens]
      exact Option.some_ne_none _
    | statics opens =>
      have opened := builds.has_opened there (statics_mem_openings r opens)
      obtain ⟨scope, is, kind, node, -⟩ := opened.found
      exact ⟨opens, scope, is, kind, node⟩
  obtain ⟨has, scope, is, kind, node⟩ := found
  rw [← builds.table_get there has inner, ← table_of_get? is] at holds
  exact ⟨scope, is, kind ▸ opens, node, holds⟩

/-- Every scope is that of the program or one that a node of the record has opened. -/
theorem exists_isOf (builds : Builds (parse (lex source).tokens).program tree record) {s : ScopeId}
    (is : tree.get? s = some scope) :
    ∃ n ∈ (parse (lex source).tokens).program.descendants, ∃ region,
      scope.IsOf s (parse (lex source).tokens).program n region := by
  rcases builds.runs.opened_of_lt (ScopeTree.lt_of_get? is) with root | ⟨o, opened, rfl⟩
  · obtain rfl : s = ScopeTree.root := Nat.lt_one_iff.1 root
    obtain ⟨scope', is', isOf⟩ := builds.root_isOf
    obtain rfl := Option.some.inj (is.symm.trans is')
    exact ⟨_, Node.mem_descendants_self _, .around, isOf⟩
  · obtain ⟨n, r, there, opened⟩ := Builds.opening_mem_performed.1 opened
    have opens : ∃ region, o.own = r.get region ∧ region ≠ .around ∧
        Opens (parse (lex source).tokens).program n region o.kind := by
      rcases mem_openings.1 opened with ⟨kind, opens, rfl⟩ | ⟨opens, rfl⟩
      · exact ⟨.own, rfl, nofun, .own opens⟩
      · exact ⟨.statics, rfl, nofun, .statics opens⟩
    obtain ⟨region, own, inner, opens⟩ := opens
    obtain ⟨scope', is', isOf⟩ := builds.opened_isOf there opens inner
    rw [own] at is ⊢
    obtain rfl := Option.some.inj (is.symm.trans is')
    exact ⟨n, builds.mem_descendants there, region, isOf⟩

end Builds

/-- The scopes of a text are those of the program and of the regions that its nodes open. Each holds
    what is bound in its region and nothing else. -/
theorem scopes_hold_what_is_bound (source : String) {tree : ScopeTree}
    (built : buildScopes (parse (lex source).tokens).program = .ok tree) :
    (∀ s scope, tree.get? s = some scope →
      ∃ n ∈ (parse (lex source).tokens).program.descendants, ∃ region,
        scope.IsOf s (parse (lex source).tokens).program n region) ∧
    ∀ n ∈ (parse (lex source).tokens).program.descendants, ∀ region kind,
      Opens (parse (lex source).tokens).program n region kind →
        ∃ s scope, tree.get? s = some scope ∧
          scope.IsOf s (parse (lex source).tokens).program n region := by
  obtain ⟨record, builds⟩ := builds_of_ok (parse_isRegular (lex source).tokens) built
  constructor
  · intro s scope is
    exact builds.exists_isOf is
  · intro n below region kind opens
    by_cases inner : region = .around
    · cases opens with
      | own | statics => cases inner
      | program => exact ⟨_, builds.root_isOf⟩
    · rcases builds.isDetail_or_mem_record below with detail | ⟨r, there⟩
      · exact absurd detail (not_isDetail_of_opens opens inner)
      · exact ⟨_, builds.opened_isOf there opens inner⟩

/-- The constructor and the first of the instances are bound in the scope of a class, its static
    member in that of the static members. -/
theorem scopes_hold_what_is_bound_class :
    ∃ tree, buildScopes
        (parse (lex "class A\n  new(b: A)\n  static var c\n  var c\n  var c\n").tokens).program =
          .ok tree ∧
      (tree.scopes.toList.map fun scope => scope.table.symbols.map (·.1)) =
        [["A"], ["new(A)", "c"], ["c"], ["b"]] ∧
      ∀ s scope, tree.get? s = some scope → ∃ n region, scope.IsOf s
        (parse (lex "class A\n  new(b: A)\n  static var c\n  var c\n  var c\n").tokens).program n
          region := by
  have tables : (buildScopes
      (parse (lex "class A\n  new(b: A)\n  static var c\n  var c\n  var c\n").tokens).program
        ).toOption.map
          (fun tree => tree.scopes.toList.map fun scope => scope.table.symbols.map (·.1)) =
      some [["A"], ["new(A)", "c"], ["c"], ["b"]] := by
    decide +kernel
  cases built : buildScopes
      (parse (lex "class A\n  new(b: A)\n  static var c\n  var c\n  var c\n").tokens).program with
  | error e =>
    rw [built] at tables
    cases tables
  | ok tree =>
    rw [built] at tables
    refine ⟨tree, rfl, Option.some.inj tables, ?_⟩
    intro s scope is
    obtain ⟨n, -, region, isOf⟩ := (scopes_hold_what_is_bound _ built).1 s scope is
    exact ⟨n, region, isOf⟩

end TekLang
