import Mathlib.Data.List.Perm.Basic
import TekLang.Node.Descendants

/-!
# The tokens of a tree

Which tokens a tree holds, and in which order they come when the tree is read from left to right.
Reading goes through the children of each node in the order of the text, with the tokens of the node
itself at their places between them.
-/

namespace TekLang

/-- The kinds of token that are there for their spelling: names, numbers, strings, truth values. -/
def TokenKind.isContent : TokenKind → Bool
  | identifier | number | string | boolean => true
  | _ => false

namespace Form

variable {α : Type}

/-- The tokens that a form holds in the order of its fields. -/
def tokens : Form α → List Token
  | variableDecl name .. | functionDecl name .. | classDecl name .. | forEach name ..
  | parameter name _ | generic name _ | catchClause name .. | identifier name => [name]
  | importDecl path rename _ => path ++ rename.toList
  | importedName name rename => name :: rename.toList
  | typeRef path .. => path
  | unary operator _ | binary _ operator _ => [operator]
  | member _ property => [property]
  | literal _ token => [token]
  | _ => []

/-- How many constituents of a form stand in front of its tokens: the operand in front of a sign and
    the object in front of the name of its member. -/
def leading : Form α → Nat
  | binary .. | member .. => 1
  | _ => 0

/-- The tokens of a form and its constituents in the order of the text, where `nodes` are the
    constituents in that order. -/
def slots (form : Form α) (nodes : List α) : List (Token ⊕ α) :=
  (nodes.take form.leading).map .inr ++
    (form.tokens.map .inl ++ (nodes.drop form.leading).map .inr)

theorem slots_perm (form : Form α) (nodes : List α) :
    (form.slots nodes).Perm (form.tokens.map .inl ++ nodes.map .inr) := by
  have parted : nodes.map Sum.inr =
      ((nodes.take form.leading).map Sum.inr ++ (nodes.drop form.leading).map Sum.inr :
        List (Token ⊕ α)) := by
    rw [← List.map_append, List.take_append_drop]
  unfold slots
  rw [parted, ← List.append_assoc, ← List.append_assoc]
  exact List.perm_append_comm.append_right _

end Form

namespace Node

theorem length_descendants_lt {n child : Node} (below : child ∈ n.children) :
    child.descendants.length < n.descendants.length := by
  rw [descendants_eq n, List.length_cons]
  have part := List.sublist_flatten_of_mem (List.mem_map_of_mem (f := descendants) below)
  exact Nat.lt_succ_of_le part.length_le

/-- What holds of a node as soon as it holds of its children holds of every node. -/
theorem induction_on_children {motive : Node → Prop}
    (step : ∀ n, (∀ child ∈ n.children, motive child) → motive n) (n : Node) : motive n :=
  step n fun child _ => induction_on_children step child
termination_by n.descendants.length
decreasing_by exact length_descendants_lt ‹_›

theorem mem_descendants_self (n : Node) : n ∈ n.descendants := by
  rw [descendants_eq]
  exact List.mem_cons_self

theorem mem_descendants_of_child {n child m : Node} (below : child ∈ n.children)
    (under : m ∈ child.descendants) : m ∈ n.descendants := by
  rw [descendants_eq]
  exact .tail _ (List.mem_flatMap.2 ⟨child, below, under⟩)

/-- Everything below a part of a tree stands in the tree, in the same order. -/
theorem descendants_sublist {n top : Node} (below : n ∈ top.descendants) :
    n.descendants.Sublist top.descendants := by
  induction top using induction_on_children with
  | step top ih =>
    rw [descendants_eq top] at below ⊢
    rcases List.mem_cons.1 below with rfl | below
    · rw [descendants_eq]
    · obtain ⟨child, there, below⟩ := List.mem_flatMap.1 below
      have part := List.sublist_flatten_of_mem (List.mem_map_of_mem (f := descendants) there)
      exact ((ih child there below).trans part).trans (List.sublist_cons_self ..)

/-- The tokens and children of a node in the order of the text. -/
def slots (n : Node) : List (Token ⊕ Node) := n.form.slots n.children

theorem mem_slots {n child : Node} : .inr child ∈ n.slots ↔ child ∈ n.children := by
  rw [slots, (Form.slots_perm ..).mem_iff]
  simp

/-- The tokens of a tree from left to right. -/
def reading (n : Node) : List Token :=
  n.slots.attach.flatMap fun slot =>
    match slot with
    | ⟨.inl t, _⟩ => [t]
    | ⟨.inr child, _⟩ => child.reading
termination_by n.descendants.length
decreasing_by exact length_descendants_lt (mem_slots.1 ‹_›)

theorem reading_eq (n : Node) : n.reading = n.slots.flatMap (Sum.elim ([·]) reading) := by
  have same : ∀ slot : { slot // slot ∈ n.slots }, (match slot with
      | ⟨.inl t, _⟩ => [t]
      | ⟨.inr child, _⟩ => child.reading) = Sum.elim ([·]) reading slot.val := by
    rintro ⟨slot, _⟩
    cases slot <;> rfl
  rw [reading, List.flatMap_congr fun slot _ => same slot]
  conv_rhs => rw [← List.attach_map_subtype_val n.slots, List.flatMap_map]

/-- All tokens that the nodes of a tree hold. -/
def tokens (n : Node) : List Token := n.descendants.flatMap (·.form.tokens)

theorem tokens_eq (n : Node) : n.tokens = n.form.tokens ++ n.children.flatMap tokens := by
  unfold tokens
  rw [descendants_eq, List.flatMap_cons, List.flatMap_assoc]

/-- Reading a tree passes each token that it holds, as often as it holds it. -/
theorem reading_perm_tokens (n : Node) : n.reading.Perm n.tokens := by
  induction n using induction_on_children with
  | step n ih =>
    have own : (n.slots.flatMap (Sum.elim ([·]) reading)).Perm
        (n.form.tokens ++ n.children.flatMap reading) := by
      have parted := (Form.slots_perm n.form n.children).flatMap_right (Sum.elim ([·]) reading)
      rw [List.flatMap_append, List.flatMap_map, List.flatMap_map] at parted
      simpa [slots, Function.comp_def] using parted
    rw [reading_eq, tokens_eq]
    exact own.trans ((List.Perm.flatMap_left _ ih).append_left _)

end Node

end TekLang
