import TekLang.Proofs.Scope.Lookup

/-!
# Refused bindings

Building the scopes fails at a binding that is refused, because a binding in front of it has the
same name. Which bindings are refused can be told from the lists `Node.bindingsIn` alone: the pass
fails exactly if one of them is refused in its list.
-/

namespace TekLang

variable {bound bound' : String → Prop} {bs : List Binding} {e : ScopeError}

/-- One of the bindings is refused with the error `e`: the names that are bound in front of it, and
    those that hold `bound`, have its own among them. -/
def Refused (bound : String → Prop) (bs : List Binding) (e : ScopeError) : Prop :=
  ∃ before b after, bs = before ++ b :: after ∧ b.refusal? = some e ∧
    (bound b.key ∨ ∃ a ∈ before, a.key = b.key)

namespace Refused

theorem not_nil : ¬ Refused bound [] e := by
  rintro ⟨before, b, after, parted, -⟩
  simp at parted

theorem of_singleton {b : Binding} (refused : Refused bound [b] e) :
    b.refusal? = some e ∧ bound b.key := by
  obtain ⟨before, b', after, parted, refuses, taken⟩ := refused
  cases before with
  | nil =>
    rw [List.nil_append, List.cons.injEq] at parted
    obtain ⟨rfl, -⟩ := parted
    rcases taken with taken | ⟨a, there, -⟩
    · exact ⟨refuses, taken⟩
    · cases there
  | cons a before => simp at parted

/-- What is refused in a part of a list is refused in the whole. -/
theorem within {first last : List Binding}
    (covers : ∀ key, bound' key → bound key ∨ ∃ a ∈ first, a.key = key)
    (refused : Refused bound' bs e) : Refused bound (first ++ (bs ++ last)) e := by
  obtain ⟨before, b, after, rfl, refuses, taken⟩ := refused
  refine ⟨first ++ before, b, after ++ last, by simp, refuses, ?_⟩
  rcases taken with taken | ⟨a, there, same⟩
  · rcases covers _ taken with taken | ⟨a, there, same⟩
    · exact .inl taken
    · exact .inr ⟨a, List.mem_append_left _ there, same⟩
  · exact .inr ⟨a, List.mem_append_right _ there, same⟩

/-- What is refused in a list is refused in one of its parts. -/
theorem of_append {first last : List Binding} (refused : Refused bound (first ++ last) e) :
    Refused bound first e ∨
      Refused (fun key => bound key ∨ ∃ a ∈ first, a.key = key) last e := by
  obtain ⟨before, b, after, parted, refuses, taken⟩ := refused
  rcases List.append_eq_append_iff.1 parted with ⟨others, rfl, rfl⟩ | ⟨others, rfl, same⟩
  · refine .inr ⟨others, b, after, rfl, refuses, ?_⟩
    rcases taken with taken | ⟨a, there, same⟩
    · exact .inl (.inl taken)
    · rcases List.mem_append.1 there with there | there
      · exact .inl (.inr ⟨a, there, same⟩)
      · exact .inr ⟨a, there, same⟩
  · cases others with
    | nil =>
      rw [List.nil_append] at same
      subst same
      refine .inr ⟨[], b, after, rfl, refuses, .inl ?_⟩
      rwa [List.append_nil]
    | cons b' others =>
      rw [List.cons_append, List.cons.injEq] at same
      obtain ⟨rfl, -⟩ := same
      exact .inl ⟨before, b, others, rfl, refuses, taken⟩

theorem mono (le : ∀ key, bound' key → bound key) (refused : Refused bound' bs e) :
    Refused bound bs e := by
  obtain ⟨before, b, after, parted, refuses, taken⟩ := refused
  exact ⟨before, b, after, parted, refuses, taken.imp_left (le _)⟩

theorem of_flatMap {α : Type} {f : α → List Binding} {l : List α}
    (refused : Refused bound (l.flatMap f) e) : ∃ before x after, l = before ++ x :: after ∧
      Refused (fun key => bound key ∨ ∃ a ∈ before.flatMap f, a.key = key) (f x) e := by
  induction l generalizing bound with
  | nil => exact absurd refused not_nil
  | cons x l ih =>
    rw [List.flatMap_cons] at refused
    rcases refused.of_append with here | later
    · refine ⟨[], x, l, rfl, ?_⟩
      exact here.mono fun key taken => .inl taken
    · obtain ⟨before, y, after, rfl, below⟩ := ih later
      refine ⟨x :: before, y, after, rfl, below.mono ?_⟩
      rintro key ((taken | ⟨a, there, same⟩) | ⟨a, there, same⟩)
      · exact .inl taken
      · exact .inr ⟨a, List.mem_flatMap_of_mem List.mem_cons_self there, same⟩
      · rw [List.flatMap_cons]
        exact .inr ⟨a, List.mem_append_right _ there, same⟩

end Refused

namespace SymbolTable

theorem has_enter (t : SymbolTable) (scope : ScopeId) (b : Binding) (key : String) :
    (t.enter scope b).has key = true ↔ t.has key = true ∨ b.key = key := by
  rw [eq_comm (a := b.key)]
  cases b with
  | plain | unique => exact has_bind ..
  | function => exact has_bind ..

theorem has_foldl (scope : ScopeId) (bs : List Binding) (t : SymbolTable) (key : String) :
    (bs.foldl (·.enter scope) t).has key = true ↔
      t.has key = true ∨ ∃ b ∈ bs, b.key = key := by
  induction bs generalizing t with
  | nil => simp
  | cons b bs ih => rw [List.foldl_cons, ih, has_enter, or_assoc, List.exists_mem_cons_iff]

end SymbolTable

/-- A node opens its scopes before it does anything in them. -/
theorem Node.plan_parted (n : Node) : ∃ before after,
    n.plan = before ++ (n.openings .names).map .opening ++ after ∧
      ∀ step ∈ before, step.scope = .around := by
  obtain ⟨id, span, form⟩ := n
  cases form with
  | conditional use condition body otherwise =>
    exact ⟨[.visit .around condition], _, rfl, by simp [ScopeStep.scope]⟩
  | switchCase conditions body =>
    refine ⟨visitAll .around conditions, visitAll .own body, ?_, ?_⟩
    · simp [plan, steps, openings, openOwn, Form.opens?, Form.opensStatics, Regions.names]
    · simp [visitAll, ScopeStep.scope]
  | forEach name type iterable body =>
    exact ⟨[.visit .around iterable], _, rfl, by simp [ScopeStep.scope]⟩
  | repeatTimes header body | whileLoop header body =>
    exact ⟨[.visit .around header], _, rfl, by simp [ScopeStep.scope]⟩
  | functionDecl | classDecl =>
    exact ⟨[.enter .around _], _, rfl, by simp [ScopeStep.scope]⟩
  | _ => exact ⟨[], _, rfl, List.forall_mem_nil _⟩

/-- So everything that is done in one of them is done behind the openings. -/
theorem opening_mem_before {n : Node} {before after : List (ScopeStep Region)}
    {step : ScopeStep Region} (parted : n.plan = before ++ step :: after)
    (inner : step.scope ≠ .around) (other : ∀ o, step ≠ .opening o) {o : Opening Region}
    (opens : o ∈ n.openings .names) : .opening o ∈ before := by
  obtain ⟨first, last, planned, outside⟩ := n.plan_parted
  have opened : .opening o ∈ first ++ (n.openings .names).map .opening :=
    List.mem_append_right _ (List.mem_map_of_mem opens)
  rw [planned] at parted
  rcases List.append_eq_append_iff.1 parted with ⟨others, rfl, -⟩ | ⟨others, same, later⟩
  · exact List.mem_append_left _ opened
  · cases others with
    | nil =>
      rw [List.append_nil] at same
      rwa [← same]
    | cons step' others =>
      rw [List.cons_append, List.cons.injEq] at later
      obtain ⟨rfl, -⟩ := later
      have there : step ∈ first ++ (n.openings .names).map .opening := by
        rw [same]
        exact List.mem_append_right _ List.mem_cons_self
      rcases List.mem_append.1 there with there | there
      · exact absurd (outside step there) inner
      · obtain ⟨o', -, rfl⟩ := List.mem_map.1 there
        exact absurd rfl (other o')

/-- Steps at a node that are parted come from its plan parted likewise. -/
theorem Node.plan_of_steps {α : Type} {n : Node} {r : Regions α}
    {before after : List (ScopeStep α)} {step : ScopeStep α}
    (parted : n.steps r = before ++ step :: after) :
    ∃ before' step' after', n.plan = before' ++ step' :: after' ∧
      before = before'.map (ScopeStep.map r.get) ∧ step = step'.map r.get := by
  rw [steps_eq_map_plan] at parted
  obtain ⟨before', others, planned, first, rest⟩ := List.map_eq_append_iff.1 parted
  obtain ⟨step', after', rfl, same, -⟩ := List.map_eq_cons_iff.1 rest
  exact ⟨before', step', after', planned, first.symm, same.symm⟩

namespace ScopeStep

theorem enter_ne_opening (region : Region) (b : Binding) (o : Opening Region) :
    enter region b ≠ opening o := by
  rintro ⟨⟩

theorem visit_ne_opening (region : Region) (n : Node) (o : Opening Region) :
    visit region n ≠ opening o := by
  rintro ⟨⟩

end ScopeStep

namespace Runs

variable {steps steps' : List (ScopeStep ScopeId)} {tree tree' : ScopeTree}
  {record : List (Node × Regions ScopeId)} {n : Node} {r : Regions ScopeId}

theorem of_append (runs : Runs (steps ++ steps') tree record tree') :
    ∃ record₁ tree₁ record₂, Runs steps tree record₁ tree₁ ∧
      Runs steps' tree₁ record₂ tree' := by
  induction steps generalizing tree record with
  | nil => exact ⟨[], tree, record, .nil tree, runs⟩
  | cons step steps ih =>
    cases runs with
    | enter known free others =>
      obtain ⟨_, tree₁, _, first, second⟩ := ih others
      exact ⟨_, tree₁, _, .enter known free first, second⟩
    | opening known next others =>
      obtain ⟨_, tree₁, _, first, second⟩ := ih others
      exact ⟨_, tree₁, _, .opening known next first, second⟩
    | visit known fits within others =>
      obtain ⟨_, tree₁, _, first, second⟩ := ih others
      exact ⟨_, tree₁, _, .visit known fits within first, second⟩

/-- The names bound in a region when the pass is about to do something there: those that were bound
    around the node before, and those that the node has bound. -/
theorem has_iff {before after : List (ScopeStep Region)} {step : ScopeStep Region}
    (runs : Runs (before.map (ScopeStep.map r.get)) tree record tree')
    (parted : n.plan = before ++ step :: after) (other : ∀ o, step ≠ .opening o)
    (ordered : r.Ordered n.form) (known : r.around < tree.size) (key : String) :
    (tree'.table (r.get step.scope)).has key = true ↔
      (step.scope = .around ∧ (tree.table r.around).has key = true) ∨
        ∃ b ∈ before.flatMap (ScopeStep.makes step.scope), b.key = key := by
  have has (s : ScopeStep Region) (there : s ∈ n.plan) := has_scope_of_mem_plan n s there
  have here : step ∈ n.plan := by simp [parted]
  have made : (before.map (ScopeStep.map r.get)).flatMap (ScopeStep.makes (r.get step.scope)) =
      before.flatMap (ScopeStep.makes step.scope) := by
    rw [List.flatMap_map]
    apply List.flatMap_congr
    intro s there
    have planned : s ∈ n.plan := by simp [parted, there]
    exact ScopeStep.makes_map (ordered.get_eq_iff (has s planned) (has step here))
  by_cases around : step.scope = .around
  · have table := runs.table_eq known
    rw [around] at made ⊢
    rw [show r.around = r.get .around from rfl, made] at table
    rw [table, SymbolTable.has_foldl]
    simp [Regions.get]
  · obtain ⟨o, opens, own⟩ := exists_opening .names (has step here) around
    have opened := List.mem_map_of_mem (f := ScopeStep.map r.get)
      (opening_mem_before parted around other opens)
    have table := runs.table_opened opened
    have place : (o.map r.get).own = r.get step.scope := by
      have name : Regions.names.get step.scope = step.scope := by
        cases step.scope <;> rfl
      rw [← name, ← own]
      rfl
    rw [place, made] at table
    rw [table, SymbolTable.has_foldl]
    simp [around, SymbolTable.has, SymbolTable.get?, SymbolTable.empty]

end Runs

/-- Somewhere in a node a binding is refused, where the names that hold `bound` are bound around the
    node. -/
def Node.Refuses (n : Node) (bound : String → Prop) (e : ScopeError) : Prop :=
  ∃ m ∈ n.descendants, ∃ region, (region = .around → m = n) ∧
    Refused (fun key => region = .around ∧ bound key) (m.bindingsIn region) e

theorem Node.bindingsIn_eq {n : Node} {before after : List (ScopeStep Region)}
    {step : ScopeStep Region} (parted : n.plan = before ++ step :: after) (region : Region) :
    n.bindingsIn region = before.flatMap (ScopeStep.makes region) ++
      (step.makes region ++ after.flatMap (ScopeStep.makes region)) := by
  rw [bindingsIn, parted, List.flatMap_append, List.flatMap_cons]

/-- When the pass fails at a node, a binding is refused there. -/
theorem Halts.refuses {steps : List (ScopeStep ScopeId)} {tree : ScopeTree}
    (halts : Halts steps tree e) {n : Node} {r : Regions ScopeId} (taken : steps = n.steps r)
    (ordered : r.Ordered n.form) (known : r.around < tree.size) :
    n.Refuses (fun key => (tree.table r.around).has key = true) e := by
  induction halts generalizing n r with
  | @enter before scope b after tree record tree' e runs there refuses bound =>
    obtain ⟨before, step, after, parted, rfl, same⟩ := n.plan_of_steps taken.symm
    cases step with
    | enter region b' =>
      cases same
      have entering := ScopeStep.enter_ne_opening region b
      have taken := (runs.has_iff parted entering ordered known b.key).1 bound
      refine ⟨n, n.mem_descendants_self, region, fun _ => rfl,
        before.flatMap (ScopeStep.makes region), b, after.flatMap (ScopeStep.makes region), ?_,
        refuses, taken⟩
      rw [n.bindingsIn_eq parted, ScopeStep.makes, if_pos rfl]
      rfl
    | opening | visit => cases same
  | @visit before r' m after tree record tree' e runs there ordered' within ih =>
    obtain ⟨before, step, after, parted, rfl, same⟩ := n.plan_of_steps taken.symm
    cases step with
    | visit region m' =>
      obtain ⟨place, rfl⟩ := ScopeStep.visit.inj same
      have below : m ∈ n.children := by
        apply @Node.mem_children_of_visit_mem_plan _ _ region
        simp [parted]
      obtain ⟨k, under, inner, only, refused⟩ := ih rfl ordered' there
      by_cases around : inner = .around
      · obtain rfl := only around
        subst around
        refine ⟨n, n.mem_descendants_self, region, fun _ => rfl, ?_⟩
        rw [n.bindingsIn_eq parted, ScopeStep.makes, if_pos rfl, Node.introduced_eq]
        refine refused.within ?_
        rintro key ⟨-, bound⟩
        rw [place] at bound
        have visiting := ScopeStep.visit_ne_opening region k
        exact (runs.has_iff parted visiting ordered known key).1 bound
      · refine ⟨k, Node.mem_descendants_of_child below under, inner, ?_, refused.mono ?_⟩
        · exact fun same => absurd same around
        · exact fun key bound => absurd bound.1 around
    | enter | opening => cases same

theorem Node.bindingsIn_of_isDetail {n : Node} (detail : n.form.isDetail = true)
    (region : Region) : n.bindingsIn region = [] := by
  obtain ⟨id, span, form⟩ := n
  cases form <;> first | rfl | cases detail

/-- When it comes through, none is. -/
theorem Runs.not_refuses {n : Node} {r : Regions ScopeId} {tree tree' : ScopeTree}
    {record : List (Node × Regions ScopeId)} (runs : Runs (n.steps r) tree record tree')
    (regular : n.IsRegular) (known : r.around < tree.size) :
    ¬ n.Refuses (fun key => (tree.table r.around).has key = true) e := by
  induction n using Node.induction_on_children generalizing r tree tree' record with
  | step n ih =>
    -- The state in which the pass comes to a step of the plan.
    have reached {before after : List (ScopeStep Region)} {step : ScopeStep Region}
        (parted : n.plan = before ++ step :: after) : ∃ record₁ tree₁ record₂,
          Runs (before.map (ScopeStep.map r.get)) tree record₁ tree₁ ∧
            Runs (step.map r.get :: after.map (ScopeStep.map r.get)) tree₁ record₂ tree' := by
      rw [steps_eq_map_plan, parted, List.map_append, List.map_cons] at runs
      exact runs.of_append
    have silent {child : Node} {region : Region} {before after : List (ScopeStep Region)}
        (parted : n.plan = before ++ .visit region child :: after) :
        ∃ tree₁ : ScopeTree,
          (∃ record₁, Runs (before.map (ScopeStep.map r.get)) tree record₁ tree₁) ∧
          ¬ child.Refuses (fun key => (tree₁.table (r.get region)).has key = true) e := by
      obtain ⟨record₁, tree₁, record₂, first, others⟩ := reached parted
      refine ⟨tree₁, ⟨record₁, first⟩, ?_⟩
      have below : child ∈ n.children := by
        apply @Node.mem_children_of_visit_mem_plan _ _ region
        simp [parted]
      have under := Node.mem_descendants_of_child below child.mem_descendants_self
      change Runs (.visit (r.get region) child :: after.map (ScopeStep.map r.get)) _ _ _ at others
      generalize place : r.get region = s at others
      cases others with
      | visit there fits within =>
        exact ih child below within (regular.of_mem_descendants under) there
    rintro ⟨m, member, region, only, refused⟩
    rw [Node.descendants_eq] at member
    rcases List.mem_cons.1 member with rfl | member
    · obtain ⟨before, step, after, parted, refused⟩ := refused.of_flatMap
      cases step with
      | enter place b =>
        rw [ScopeStep.makes] at refused
        split at refused
        · next here =>
          subst here
          obtain ⟨refuses, bound⟩ := refused.of_singleton
          obtain ⟨record₁, tree₁, record₂, first, others⟩ := reached parted
          cases others with
          | enter there free =>
            have free := free b.key (Binding.reserved?_of_refusal? refuses)
            have entering := ScopeStep.enter_ne_opening place b
            have taken := (first.has_iff parted entering runs.ordered known b.key).2 bound
            exact Bool.false_ne_true (free.symm.trans taken)
        · exact Refused.not_nil refused
      | opening => exact Refused.not_nil refused
      | visit place child =>
        rw [ScopeStep.makes] at refused
        split at refused
        · next here =>
          subst here
          obtain ⟨tree₁, ⟨record₁, first⟩, silent⟩ := silent parted
          refine silent ⟨child, child.mem_descendants_self, .around, fun _ => rfl, ?_⟩
          rw [Node.introduced_eq] at refused
          refine refused.mono ?_
          intro key bound
          have visiting := ScopeStep.visit_ne_opening place child
          exact ⟨rfl, (first.has_iff parted visiting runs.ordered known key).2 bound⟩
        · exact Refused.not_nil refused
    · obtain ⟨child, there, under⟩ := List.mem_flatMap.1 member
      have inner : region ≠ .around := by
        intro around
        obtain rfl := only around
        have longer := Node.length_descendants_lt there
        exact absurd (Node.descendants_sublist under).length_le (Nat.not_le_of_lt longer)
      have parts := (details_append_visited n .names).trans n.children_perm.symm
      rcases List.mem_append.1 (parts.mem_iff.2 there) with detail | visits
      · have details := regular.details n n.mem_descendants_self child detail m under
        rw [Node.bindingsIn_of_isDetail details] at refused
        exact Refused.not_nil refused
      · obtain ⟨step, planned, visited⟩ := List.mem_filterMap.1 visits
        cases step with
        | visit place child' =>
          cases visited
          obtain ⟨before, after, parted⟩ := List.append_of_mem planned
          obtain ⟨tree₁, -, silent⟩ := silent parted
          refine silent ⟨m, under, region, fun around => absurd around inner, refused.mono ?_⟩
          exact fun key bound => absurd bound.1 inner
        | enter | opening => cases visited

/-- The pass over a program is the visit of its root. -/
theorem buildScopes_of_visit_ok {id : NodeId} {span : Span} {body : List Node} {tree : ScopeTree}
    (run : ScopeBuild.visit ScopeTree.root ⟨id, span, .program body⟩ (.ofProgram id) =
      .ok () tree) : buildScopes ⟨id, span, .program body⟩ = .ok tree := by
  have run : ScopeBuild.visitList ScopeTree.root body (.ofProgram id) = .ok () tree := run
  simp only [buildScopes, EStateM.run, run]

theorem buildScopes_of_visit_error {id : NodeId} {span : Span} {body : List Node} {e : ScopeError}
    {tree : ScopeTree}
    (run : ScopeBuild.visit ScopeTree.root ⟨id, span, .program body⟩ (.ofProgram id) =
      .error e tree) : buildScopes ⟨id, span, .program body⟩ = .error e := by
  have run : ScopeBuild.visitList ScopeTree.root body (.ofProgram id) = .error e tree := run
  simp only [buildScopes, EStateM.run, run]

/-- Building the scopes of a program fails exactly if a binding is refused, and with its error. -/
theorem buildScopes_error_iff {program : Node} {body : List Node}
    (is : program.form = .program body) (regular : program.IsRegular) :
    ((∃ e, buildScopes program = .error e) ↔ ∃ e, program.Refuses (fun _ => False) e) ∧
      ∀ e, buildScopes program = .error e → program.Refuses (fun _ => False) e := by
  obtain ⟨id, span, form⟩ := program
  obtain rfl : form = .program body := is
  obtain ⟨r, around, fits, ordered, outcome⟩ := ScopeBuild.performs_node
    ⟨id, span, .program body⟩ ScopeTree.root (.ofProgram id) Nat.one_pos
  have known : r.around < (ScopeTree.ofProgram id).size := around ▸ Nat.one_pos
  have empty : (fun key => ((ScopeTree.ofProgram id).table r.around).has key = true) =
      fun _ => False := by
    rw [around]
    refine funext fun key => eq_false ?_
    rintro ⟨⟩
  cases run : ScopeBuild.visit ScopeTree.root ⟨id, span, .program body⟩ (.ofProgram id) with
  | ok _ tree =>
    rw [run] at outcome
    obtain ⟨record, runs⟩ := outcome
    have silent (e : ScopeError) := runs.not_refuses (e := e) regular known
    rw [empty] at silent
    have built : buildScopes ⟨id, span, .program body⟩ = .ok tree := buildScopes_of_visit_ok run
    rw [built]
    refine ⟨⟨?_, ?_⟩, ?_⟩
    · rintro ⟨e, ⟨⟩⟩
    · rintro ⟨e, refuses⟩
      exact absurd refuses (silent e)
    · rintro e ⟨⟩
  | error e tree =>
    rw [run] at outcome
    have refuses := Halts.refuses outcome rfl ordered known
    rw [empty] at refuses
    have built : buildScopes ⟨id, span, .program body⟩ = .error e := buildScopes_of_visit_error run
    rw [built]
    refine ⟨⟨fun _ => ⟨e, refuses⟩, fun _ => ⟨e, rfl⟩⟩, ?_⟩
    intro e' same
    cases same
    exact refuses

end TekLang
