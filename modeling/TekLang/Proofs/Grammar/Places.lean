import Mathlib.Data.List.Pairwise
import TekLang.Proofs.Grammar.Nesting

/-!
# Where nodes stand

Of two nodes of a tree one is below the other, or they stand one behind the other. A node that
begins with a word of its own starts in front of all that is below it, so that among such nodes the
start alone says which one it is.
-/

namespace TekLang

/-- Whether a form begins with a word of its own and not with a constituent. -/
def Form.isAnnounced {α : Type} : Form α → Bool
  | assignment .. | binary .. | call .. | index .. | member .. | instanceOf .. | expressionStmt _
  | classMember false _ | program _ => false
  | _ => true

theorem Production.announced {phrase : Phrase} {items : List Item} {first last : Token}
    {span : Span} {form : Form Node} (made : Production phrase items first last span form)
    (announced : form.isAnnounced = true) : ∃ t others, items = .word t :: others := by
  cases made with
  | assignment | binary | call | index | member | instanceOf | expressionStmt | instanceMember =>
    cases announced
  | _ => exact ⟨_, _, rfl⟩

/-- What begins with a word of its own starts in front of its constituents. -/
theorem Node.IsRead.start_lt {c : Cursor} {n : Node} (read : n.IsRead c)
    (ordered : WordsInOrder c.rest) (announced : n.form.isAnnounced = true) :
    ∀ child ∈ n.children, n.start < child.start := by
  intro child there
  cases read with
  | @mk phrase inner closing span form c₀ c₁ c₂ behind made within =>
    have part := made.nodesOf_perm.mem_iff.2 (Node.mem_children.1 there)
    obtain ⟨t, others, rfl⟩ := made.announced announced
    cases within with
    | @word _ rest _ _ _ ahead more =>
      obtain ⟨used, taken, yields⟩ := more.yields
      have taken : c₀.rest = t :: used ++ c₁.rest := by
        rw [ahead, List.cons_append, ← taken]
        rfl
      obtain ⟨t', used', same, word, start⟩ := (Reads.word ahead more).firstWord rfl made taken
      cases same
      have front := ordered.of_sublist ((List.sublist_append_left ..).trans
        (taken ▸ behind.sublist))
      have counted : wordsOf (t :: used) = t :: wordsOf used := by
        apply List.filter_cons_of_pos
        rw [word]
        rfl
      rw [WordsInOrder, counted] at front
      obtain ⟨u, among, begun⟩ := List.mem_map.1 (yields.starts.subset (List.mem_map_of_mem part))
      change span.start < child.start
      rw [start, ← begun]
      exact (List.pairwise_cons.1 front).1 u among

namespace Node

variable {top n m : Node}

theorem exists_parent (below : n ∈ top.descendants) :
    n = top ∨ ∃ p ∈ top.descendants, n ∈ p.children := by
  induction top using induction_on_children with
  | step top ih =>
    rw [descendants_eq] at below
    rcases List.mem_cons.1 below with same | below
    · exact .inl same
    · obtain ⟨child, there, under⟩ := List.mem_flatMap.1 below
      rcases ih child there under with rfl | ⟨p, within, stands⟩
      · exact .inr ⟨top, top.mem_descendants_self, there⟩
      · exact .inr ⟨p, mem_descendants_of_child there within, stands⟩

/-- A node spans all that is below it. -/
theorem contains_of_mem_descendants (nests : ∀ k ∈ top.descendants, k.Nests)
    (below : n ∈ top.descendants) : top.span.Contains n.span := by
  induction top using induction_on_children with
  | step top ih =>
    have own := nests top top.mem_descendants_self
    rw [descendants_eq] at below
    rcases List.mem_cons.1 below with rfl | below
    · exact .refl _
    · obtain ⟨child, there, under⟩ := List.mem_flatMap.1 below
      have inside (k : Node) (under : k ∈ child.descendants) : k.Nests :=
        nests k (mem_descendants_of_child there under)
      exact (own.contains child there).trans (ih child there inside under)

/-- One of two nodes stops before the other starts. -/
def IsApart (n m : Node) : Prop := n.span.stop ≤ m.span.start ∨ m.span.stop ≤ n.span.start

instance : Std.Symm IsApart := ⟨fun _ _ => Or.symm⟩

/-- Of two nodes of a tree one is below the other, or they stand one behind the other. -/
theorem below_or_apart (nests : ∀ k ∈ top.descendants, k.Nests) (below : n ∈ top.descendants)
    (below' : m ∈ top.descendants) : n ∈ m.descendants ∨ m ∈ n.descendants ∨ n.IsApart m := by
  induction top using induction_on_children with
  | step top ih =>
    have whole := below
    have whole' := below'
    rw [descendants_eq] at below below'
    rcases List.mem_cons.1 below with rfl | below
    · exact .inr (.inl whole')
    rcases List.mem_cons.1 below' with rfl | below'
    · exact .inl whole
    obtain ⟨a, there, under⟩ := List.mem_flatMap.1 below
    obtain ⟨b, there', under'⟩ := List.mem_flatMap.1 below'
    have inside {child : Node} (there : child ∈ top.children) (k : Node)
        (under : k ∈ child.descendants) : k.Nests := nests k (mem_descendants_of_child there under)
    by_cases same : a = b
    · subst same
      exact ih a there (inside there) under under'
    · have apart : top.children.Pairwise IsApart :=
        (nests top top.mem_descendants_self).apart.imp .inl
      have one := contains_of_mem_descendants (inside there) under
      have other := contains_of_mem_descendants (inside there') under'
      rcases apart.forall there there' same with front | behind
      · exact .inr (.inr (.inl (Position.le_trans one.2 (Position.le_trans front other.1))))
      · exact .inr (.inr (.inr (Position.le_trans other.2 (Position.le_trans behind one.1))))

/-- If nodes mark places within their spans, and each in front of those that are marked below it,
    then no two mark the same place. -/
theorem eq_of_mark (Marks : Node → Position → Prop) (nests : ∀ k ∈ top.descendants, k.Nests)
    (within : ∀ k ∈ top.descendants, ∀ p, Marks k p → k.start ≤ p ∧ p < k.span.stop)
    (deeper : ∀ k ∈ top.descendants, ∀ child ∈ k.children, ∀ l ∈ child.descendants, ∀ p q,
      Marks k p → Marks l q → p < q)
    (below : n ∈ top.descendants) (below' : m ∈ top.descendants) {p : Position}
    (marks : Marks n p) (marks' : Marks m p) : n = m := by
  have first {k l : Node} (there : l ∈ top.descendants) (inside : k ∈ l.descendants)
      (marks : Marks k p) (marks' : Marks l p) : k = l := by
    rw [descendants_eq] at inside
    refine (List.mem_cons.1 inside).resolve_right fun inside => ?_
    obtain ⟨child, part, under⟩ := List.mem_flatMap.1 inside
    exact Position.lt_irrefl p (deeper l there child part k under p p marks' marks)
  rcases below_or_apart nests below below' with inside | inside | front | front
  · exact first below' inside marks marks'
  · exact (first below inside marks' marks).symm
  · have least := Position.le_trans front (within m below' p marks').1
    exact absurd (Position.lt_of_lt_of_le (within n below p marks).2 least) (Position.lt_irrefl p)
  · have least := Position.le_trans front (within n below p marks).1
    exact absurd (Position.lt_of_lt_of_le (within m below' p marks').2 least) (Position.lt_irrefl p)

end Node

theorem isAnnounced_program (tokens : List Token) :
    (parse tokens).program.form.isAnnounced = false := rfl

/-- What begins with a word of its own starts in front of all that is below it. -/
theorem start_lt_of_mem_descendants {source : String} {n child m : Node}
    (below : n ∈ (parse (lex source).tokens).program.descendants)
    (announced : n.form.isAnnounced = true) (there : child ∈ n.children)
    (under : m ∈ child.descendants) : n.start < m.start := by
  have read : n.IsRead (.ofTokens (lex source).tokens) := by
    refine (parse_isRead below).resolve_left ?_
    rintro rfl
    cases (isAnnounced_program _).symm.trans announced
  have first := read.start_lt (wordsInOrder_ofTokens source) announced child there
  have nests (k : Node) (inside : k ∈ child.descendants) : k.Nests :=
    parse_nests (inTextOrder_lex source) k
      ((Node.descendants_sublist below).subset (Node.mem_descendants_of_child there inside))
  exact Position.lt_of_lt_of_le first (Node.contains_of_mem_descendants nests under).1

theorem start_lt_stop {source : String} {n : Node}
    (below : n ∈ (parse (lex source).tokens).program.descendants)
    (announced : n.form.isAnnounced = true) : n.span.start < n.span.stop := by
  rcases Node.exists_parent below with rfl | ⟨p, within, stands⟩
  · cases (isAnnounced_program _).symm.trans announced
  · exact (parse_nests (inTextOrder_lex source) p within).proper n stands

/-- Two nodes of a text that begin with words of their own are one if they start in one place. -/
theorem eq_of_start {source : String} {n m : Node}
    (below : n ∈ (parse (lex source).tokens).program.descendants)
    (below' : m ∈ (parse (lex source).tokens).program.descendants)
    (announced : n.form.isAnnounced = true) (announced' : m.form.isAnnounced = true)
    (same : n.start = m.start) : n = m := by
  refine Node.eq_of_mark (fun k p => k.form.isAnnounced = true ∧ k.start = p)
    (parse_nests (inTextOrder_lex source)) ?_ ?_ below below' ⟨announced, same⟩ ⟨announced', rfl⟩
  · rintro k there p ⟨announced, rfl⟩
    exact ⟨Position.le_refl _, start_lt_stop there announced⟩
  · rintro k there child part l under p q ⟨announced, rfl⟩ ⟨-, rfl⟩
    exact start_lt_of_mem_descendants there announced part under

end TekLang
