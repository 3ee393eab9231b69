import TekLang.Proofs.Grammar.Log
import TekLang.Proofs.Grammar.Places

/-!
# How nodes are numbered

Nodes are numbered as they are made, from zero on. A node is made behind everything that is read
within it, so its number is larger than those below it, and the program is made last. Where reading
fails, nodes have been made in vain and their numbers are missing in the tree; without faults none
is missing. In the tree of a text, whose members are kept in three lists and come back in the order
of the text, the numbers are those of the postorder.

Which nodes are made is what a log of the run says (`parse_logged`). What is in the tree is told by
induction on `Reads`: the nodes among the items that are read have all the numbers from the first
one on up to the next to be given out, and in postorder these rise.
-/

namespace TekLang

namespace Node

/-- The nodes of a tree, each behind its children. -/
def postorder (n : Node) : List Node :=
  n.children.attach.flatMap (fun child => child.val.postorder) ++ [n]
termination_by n.descendants.length
decreasing_by exact length_descendants_lt child.property

theorem postorder_eq (n : Node) : n.postorder = n.children.flatMap postorder ++ [n] := by
  rw [postorder]
  conv_rhs => rw [← List.attach_map_subtype_val n.children, List.flatMap_map]

end Node

/-- The number of a node is larger than those of all nodes below it. -/
def Node.IsNumberedLast (n : Node) : Prop :=
  ∀ child ∈ n.children, ∀ m ∈ child.descendants, m.id < n.id

/-- Numbers below a node are below its own if those of its items are. -/
theorem Production.isNumberedLast {phrase : Phrase} {items : List Item} {first last : Token}
    {span : Span} {form : Form Node} (made : Production phrase items first last span form)
    {id : NodeId} (below : ∀ i ∈ numbersOf items, i < id) :
    Node.IsNumberedLast ⟨id, span, form⟩ := by
  intro child there m under
  have part := made.nodesOf_perm.mem_iff.2 (Node.mem_children.1 there)
  exact below m.id (List.mem_flatMap.2 ⟨child, part, List.mem_map_of_mem under⟩)

theorem mem_numbersOf {n m : Node} {items : List Item} (there : n ∈ nodesOf items)
    (under : m ∈ n.descendants) : m.id ∈ numbersOf items :=
  List.mem_flatMap.2 ⟨n, there, List.mem_map_of_mem under⟩

theorem numbersOf_part (phrase : Phrase) (n : Node) (items : List Item) :
    numbersOf (.part phrase n :: items) = n.descendants.map (·.id) ++ numbersOf items := by
  rw [numbersOf, nodesOf_part, List.flatMap_cons]
  rfl

/-- The numbers of the nodes among items and below them, each node behind its children. -/
def orderedNumbersOf (items : List Item) : List NodeId :=
  (nodesOf items).flatMap fun n => n.postorder.map (·.id)

theorem orderedNumbersOf_part (phrase : Phrase) (n : Node) (items : List Item) :
    orderedNumbersOf (.part phrase n :: items) =
      n.postorder.map (·.id) ++ orderedNumbersOf items := by
  rw [orderedNumbersOf, nodesOf_part, List.flatMap_cons]
  rfl

/-- In postorder the node of a phrase comes behind all that is read within it. -/
theorem Production.numbers_eq {phrase : Phrase} {inner : List Item} {first last : Token}
    {span : Span} {form : Form Node} (made : Production phrase inner first last span form)
    (id : NodeId) (starts : (nodesOf inner).Pairwise (·.start < ·.start)) :
    (Node.postorder ⟨id, span, form⟩).map (·.id) = orderedNumbersOf inner ++ [id] := by
  rw [Node.postorder_eq, made.children_eq id starts, List.map_append, List.map_flatMap]
  rfl

/-- No number is missing among the items that are read, and where the words are in order, the
    numbers are given out in postorder. -/
theorem Reads.numbers {items : List Item} {c c' : Cursor} (reads : Reads items c c') :
    ∃ made, c'.nextId = c.nextId + made ∧ (numbersOf items).Perm (List.range' c.nextId made) ∧
      (WordsInOrder c.rest → orderedNumbersOf items = List.range' c.nextId made) := by
  induction reads with
  | nil c => exact ⟨0, rfl, .refl _, fun _ => rfl⟩
  | word ahead _ ih =>
    obtain ⟨made, next, all, inOrder⟩ := ih
    refine ⟨made, next, all, fun ordered => inOrder ?_⟩
    rw [ahead] at ordered
    exact ordered.of_sublist (List.sublist_cons_self ..)
  | @part phrase inner closing first span form items c c₁ c₂ c' begins made within closed ends
      others ih_within ih_closed ih_others =>
    obtain ⟨below, next, all, inOrder⟩ := ih_within
    obtain ⟨none, next', all', -⟩ := ih_closed
    obtain ⟨behind, next'', all'', inOrder''⟩ := ih_others
    obtain rfl : none = 0 := by
      have empty : numbersOf closing = [] := by cases ends <;> rfl
      simpa [empty] using all'.length_eq.symm
    have number : c₂.nextId = c.nextId + below := next'.trans next
    have counted : c₂.numbered.nextId = c.nextId + (below + 1) := congrArg (· + 1) number
    have split : List.range' c.nextId (below + 1 + behind) =
        List.range' c.nextId below ++ [c₂.nextId] ++ List.range' c₂.numbered.nextId behind := by
      rw [← List.range'_append_1, List.range'_concat, Nat.one_mul, counted, number]
    refine ⟨below + 1 + behind, ?_, ?_, ?_⟩
    · rw [next'', counted, Nat.add_assoc]
    · rw [numbersOf_part, split]
      refine List.Perm.append ?_ all''
      have last := (List.perm_append_singleton c₂.nextId (numbersOf inner)).symm
      exact ((made.numbers_perm c₂.nextId).trans last).trans (all.append_right _)
    · intro ordered
      have suffix := closed.rest_suffix.trans within.rest_suffix
      rw [orderedNumbersOf_part, made.numbers_eq c₂.nextId (within.starts ordered), split,
        inOrder ordered, inOrder'' (ordered.of_sublist suffix.sublist)]

/-- A node is numbered behind all that is below it. -/
theorem Node.IsRead.isNumberedLast {c : Cursor} {n : Node} (read : n.IsRead c) :
    n.IsNumberedLast := by
  cases read with
  | mk behind made within closed ends =>
    refine made.isNumberedLast ?_
    intro i below
    exact Nat.lt_of_lt_of_le (within.numbered.range i below).2 closed.numbered.le

namespace ReadsProgram

variable {c : Cursor} {top : TopLevel}

/-- Up to the end of a program numbers are given out, of which some are lost at faults. -/
theorem numbers (reads : ReadsProgram c top) : ∃ made, top.nextId = c.nextId + made ∧
    (top.errors = [] →
      (numbersOf (parts .declaration top.body)).Perm (List.range' c.nextId made)) ∧
    (WordsInOrder c.rest →
      (orderedNumbersOf (parts .declaration top.body)).Sublist (List.range' c.nextId made)) := by
  induction reads with
  | done => exact ⟨0, rfl, fun _ => .refl _, fun _ => .slnil⟩
  | @skip c t rest top ahead _ _ ih =>
    obtain ⟨made, next, all, inOrder⟩ := ih
    refine ⟨made, next, all, fun ordered => inOrder ?_⟩
    rw [ahead] at ordered
    exact ordered.of_sublist (List.sublist_cons_self ..)
  | @declaration c c' n top run _ ih =>
    have reads := Parser.construct_follows.declaration.reads run
    obtain ⟨first, here, all, inOrder⟩ := reads.numbers
    obtain ⟨more, next, all', inOrder'⟩ := ih
    have split : List.range' c.nextId (first + more) =
        List.range' c.nextId first ++ List.range' c'.nextId more := by
      rw [here, List.range'_append_1]
    rw [numbersOf_part, numbersOf, nodesOf_nil, List.flatMap_nil, List.append_nil] at all
    rw [orderedNumbersOf_part, orderedNumbersOf, nodesOf_nil, List.flatMap_nil,
      List.append_nil] at inOrder
    refine ⟨first + more, ?_, ?_, ?_⟩
    · rw [next, here, Nat.add_assoc]
    · intro clean
      rw [split]
      exact all.append (all' clean)
    · intro ordered
      have others := inOrder' (ordered.of_sublist reads.rest_suffix.sublist)
      rw [split, ← inOrder ordered]
      exact others.append_left _
  | @fault c c' e top run _ ih =>
    have moves := (Parser.advances_construct .declaration).forward.error run
    obtain ⟨lost, here⟩ := Nat.exists_eq_add_of_le moves.nextId_le
    obtain ⟨more, next, -, inOrder⟩ := ih
    have next : top.nextId = c'.nextId + more := next
    refine ⟨lost + more, ?_, ?_, ?_⟩
    · rw [next, here, Nat.add_assoc]
    · intro clean
      cases clean
    · intro ordered
      have suffix := c'.recover_suffix.trans moves.rest_suffix
      rw [← List.range'_append_1, ← here]
      exact (inOrder (ordered.of_sublist suffix.sublist)).trans (List.sublist_append_right ..)

end ReadsProgram

section Program

variable (id : NodeId) (span : Span) (body : List Node)

theorem numbers_program : (Node.descendants ⟨id, span, .program body⟩).map (·.id) =
    id :: numbersOf (parts .declaration body) := by
  have children : Node.children ⟨id, span, .program body⟩ = body := rfl
  rw [Node.descendants_eq, children, List.map_cons, List.map_flatMap, numbersOf, nodesOf_parts]

theorem orderedNumbers_program : (Node.postorder ⟨id, span, .program body⟩).map (·.id) =
    orderedNumbersOf (parts .declaration body) ++ [id] := by
  have children : Node.children ⟨id, span, .program body⟩ = body := rfl
  rw [Node.postorder_eq, children, List.map_append, List.map_flatMap, orderedNumbersOf,
    nodesOf_parts]
  rfl

end Program

/-- Every node of a tree is numbered behind all that is below it, the program too. -/
theorem parse_isNumberedLast {tokens : List Token} {n : Node}
    (below : n ∈ (parse tokens).program.descendants) : n.IsNumberedLast := by
  rcases parse_isRead below with rfl | read
  · obtain ⟨top, span, reads, tree⟩ := parse_reads tokens
    rw [tree]
    intro child part m under
    refine (reads.numbered.range m.id (mem_numbersOf (n := child) ?_ under)).2
    rwa [nodesOf_parts]
  · exact read.isNumberedLast

theorem Node.IsNumberedLast.le {n m : Node} (last : n.IsNumberedLast)
    (below : m ∈ n.descendants) : m.id ≤ n.id := by
  rw [descendants_eq] at below
  rcases List.mem_cons.1 below with rfl | below
  · exact Nat.le_refl _
  · obtain ⟨child, part, under⟩ := List.mem_flatMap.1 below
    exact Nat.le_of_lt (last child part m under)

/-- The number of the program is how many numbers were given out before. Without faults all of them
    are in the tree, and in postorder they rise. -/
theorem parse_givesNumbers (tokens : List Token) :
    ((parse tokens).diagnostics = [] → ((parse tokens).program.descendants.map (·.id)).Perm
      (List.range ((parse tokens).program.id + 1))) ∧
    (WordsInOrder (Cursor.ofTokens tokens).rest →
      ((parse tokens).program.postorder.map (·.id)).Pairwise (· < ·)) := by
  obtain ⟨top, span, reads, tree⟩ := parse_reads tokens
  obtain ⟨made, next, all, inOrder⟩ := reads.numbers
  have first : (Cursor.ofTokens tokens).nextId = 0 := rfl
  rw [first, Nat.zero_add] at next
  rw [first, ← List.range_eq_range', ← next] at all inOrder
  rw [tree]
  constructor
  · intro clean
    rw [numbers_program, List.range_succ]
    have numbers := all (List.map_eq_nil_iff.1 clean)
    exact (List.perm_append_singleton _ _).symm.trans (numbers.append_right _)
  · intro ordered
    have rising := (inOrder ordered).append_right [top.nextId]
    rw [← List.range_succ] at rising
    rw [orderedNumbers_program]
    exact List.pairwise_lt_range.sublist rising

/-- No two nodes of a tree have one number, and every node has a larger one than the nodes below it.
    A run that writes down every node it makes, those too that are lost at faults, is the run
    itself: the nodes have the numbers from zero on in the order in which they are made, and the
    last of them is the program, so that its number is one less than how many were made, and none in
    the tree is larger. Without faults as many nodes are in the tree as were made, with the numbers
    from zero on. In the tree of a text the numbers rise in postorder. -/
theorem parse_numbers (tokens : List Token) :
    let program := (parse tokens).program
    (program.descendants.map (·.id)).Nodup ∧
      (∀ n ∈ program.descendants, ∀ child ∈ n.children, ∀ m ∈ child.descendants, m.id < n.id) ∧
      (let run := TokenStream.readProgram (⟨Tape.ofTokens tokens, []⟩ : Logged Tape)
        let made := run.2.made
        run.1 = parse tokens ∧ made.map (·.id) = List.range made.length ∧
          made.getLast? = some program ∧ program.id + 1 = made.length ∧
          (∀ n ∈ program.descendants, n.id ≤ program.id) ∧
          ((parse tokens).diagnostics = [] → program.descendants.length = made.length)) ∧
      ((parse tokens).diagnostics = [] → (program.descendants.map (·.id)).Perm
        (List.range program.descendants.length)) ∧
      ∀ source, tokens = (lex source).tokens →
        (program.postorder.map (·.id)).Pairwise (· < ·) := by
  obtain ⟨all, inOrder⟩ := parse_givesNumbers tokens
  obtain ⟨read, numbers, last⟩ := parse_logged tokens
  have count := congrArg List.length numbers
  rw [List.length_map, List.length_range] at count
  have length (clean : (parse tokens).diagnostics = []) :
      (parse tokens).program.descendants.length = (parse tokens).program.id + 1 := by
    simpa using (all clean).length_eq
  have top : (parse tokens).program.IsNumberedLast :=
    parse_isNumberedLast (Node.mem_descendants_self _)
  refine ⟨parse_ids_nodup tokens, fun n => parse_isNumberedLast, ?_, ?_, ?_⟩
  · refine ⟨read, ?_, last, count.symm, fun n => top.le, ?_⟩
    · rw [count]
      exact numbers
    · intro clean
      rw [length clean, count]
  · intro clean
    rw [length clean]
    exact all clean
  · intro source lexed
    apply inOrder
    rw [lexed]
    exact wordsInOrder_ofTokens source

/-- The members of a class that stand in another order than the lists they are kept in. -/
theorem parse_numbers_class :
    let source := "class A\n  var b: C\n  static function d(): E\n  new(f: G)\n"
    (parse (lex source).tokens).diagnostics = [] ∧
      ((parse (lex source).tokens).program.postorder.map (·.id)).Pairwise (· < ·) ∧
      ((parse (lex source).tokens).program.descendants.map (·.id)).Perm
        (List.range (parse (lex source).tokens).program.descendants.length) := by
  intro source
  have clean : (parse (lex source).tokens).diagnostics = [] := by decide +kernel
  have numbers := parse_numbers (lex source).tokens
  exact ⟨clean, numbers.2.2.2.2 source rfl, numbers.2.2.2.1 clean⟩

end TekLang
