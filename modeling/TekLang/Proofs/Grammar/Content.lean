import Mathlib.Data.List.Perm.Subperm
import TekLang.Proofs.Grammar.Derivation
import TekLang.Proofs.Grammar.Yield
import TekLang.Proofs.Token.Order

/-!
# What reading does with tokens and numbers

Items that lead from one cursor to another take the tokens between the two in one piece. Three
statements about them go through by induction on `Reads`: where phrases begin, which tokens the
trees hold and how their nodes are numbered.
-/

namespace TekLang

variable {phrase : Phrase} {items : List Item} {c c' : Cursor}

/-- Where the node of a phrase starts: with its first item. -/
theorem Production.start {first last : Token} {span : Span} {form : Form Node}
    (made : Production phrase items first last span form) :
    (∃ t others, items = .word t :: others ∧ t.kind.isLayout = false ∧
      (span.start = t.span.start ∨ span.start = first.span.start)) ∨
    ∃ inner n others, items = .part inner n :: others ∧
      (span.start = n.start ∨ span.start = first.span.start) := by
  have word {t : Token} {kind : TokenKind} (same : t.kind = kind) (plain : kind.isLayout = false) :
      t.kind.isLayout = false := by
    rw [same]
    exact plain
  cases made with
  | typeRef named | generic named | parameter named | importedName named =>
    exact .inl ⟨_, _, rfl, word named rfl, .inl rfl⟩
  | unary kind =>
    rcases kind with kind | kind
    · exact .inl ⟨_, _, rfl, word kind rfl, .inl rfl⟩
    · exact .inl ⟨_, _, rfl, word kind rfl, .inl rfl⟩
  | literal sort kind =>
    have plain : sort.tokenKind.isLayout = false := by cases sort <;> rfl
    exact .inl ⟨_, _, rfl, word kind plain, .inl rfl⟩
  | jumpStmt jump kind =>
    rcases kind with kind | kind | kind
    · exact .inl ⟨_, _, rfl, word kind rfl, .inl rfl⟩
    · exact .inl ⟨_, _, rfl, word kind rfl, .inl rfl⟩
    · exact .inl ⟨_, _, rfl, word kind rfl, .inl rfl⟩
  | staticMember kind => exact .inl ⟨_, _, rfl, word kind rfl, .inr rfl⟩
  | instanceMember => exact .inr ⟨_, _, _, rfl, .inr rfl⟩
  | binary | call | index | member | instanceOf | assignment | expressionStmt =>
    exact .inr ⟨_, _, _, rfl, .inl rfl⟩
  | wrapped kind | array kind | identifier kind | this kind | super kind | async kind | new kind =>
    exact .inl ⟨_, _, rfl, word kind rfl, .inl rfl⟩
  | conditional _ kind | elseBranch _ kind | elseIf _ kind | functionDecl _ kind =>
    exact .inl ⟨_, _, rfl, word kind rfl, .inl rfl⟩
  | variableDecl kind | constructor kind | classDecl kind | importDecl kind | forEach kind
  | whileLoop kind | repeatTimes kind | switchCase kind | switch kind | catchClause kind
  | tryCatch kind | returnStmt kind | throwStmt kind | yieldStmt kind =>
    exact .inl ⟨_, _, rfl, word kind rfl, .inl rfl⟩

/-- A phrase begins at a word, never at a token of the layout. -/
theorem Reads.begins {inner : Phrase} {n : Node} {others : List Item} (reads : Reads items c c')
    (first : items = .part inner n :: others) :
    ∃ t rest, c.rest = t :: rest ∧ t.kind.isLayout = false ∧ n.start = t.span.start := by
  induction reads generalizing inner n others with
  | nil => cases first
  | word => cases first
  | part begins made within _ _ _ ih =>
    cases first
    rcases made.start with ⟨t, others, rfl, word, start⟩ | ⟨inner, n, others, rfl, start⟩
    · cases within with
      | word ahead =>
        rw [begins, Cursor.upcoming_of_rest_cons ahead, or_self] at start
        exact ⟨t, _, ahead, word, start⟩
    · obtain ⟨t, rest, ahead, word, same⟩ := ih rfl
      rw [begins, Cursor.upcoming_of_rest_cons ahead, ← same, or_self] at start
      exact ⟨t, rest, ahead, word, start.trans same⟩

/-- Tokens that count for their spelling. -/
def contentOf (ts : List Token) : List Token := ts.filter (·.kind.isContent)

theorem contentOf_append (ts us : List Token) :
    contentOf (ts ++ us) = contentOf ts ++ contentOf us := List.filter_append ..

/-- The tokens of slots from left to right. -/
def readingOfSlots (slots : List (Token ⊕ Node)) : List Token :=
  slots.flatMap (Sum.elim ([·]) Node.reading)

/-- The tokens of an item from left to right, in so far as it is a token or nodes hold them. -/
def Item.reading : Item → List Token
  | word t => [t]
  | part _ n => n.reading

/-- The tokens of items from left to right. -/
def readingOf (items : List Item) : List Token := items.flatMap Item.reading

namespace Retains

variable {slots : List (Token ⊕ Node)}

theorem content_eq (retains : Retains slots items) :
    contentOf (readingOfSlots slots) = contentOf (readingOf items) := by
  induction retains with
  | nil => rfl
  | @word t slots items others ih =>
    rw [readingOfSlots, readingOf, List.flatMap_cons, List.flatMap_cons, contentOf_append,
      contentOf_append]
    exact congrArg _ ih
  | @part phrase n slots items others ih =>
    rw [readingOfSlots, readingOf, List.flatMap_cons, List.flatMap_cons, contentOf_append,
      contentOf_append]
    exact congrArg _ ih
  | @skip t kind slots items same plain others ih =>
    have dropped : contentOf (Item.word t).reading = [] := by
      apply List.filter_cons_of_neg
      rw [same, plain]
      exact Bool.false_ne_true
    rw [readingOf, List.flatMap_cons, contentOf_append, dropped]
    exact ih

theorem sublist (retains : Retains slots items) :
    (readingOfSlots slots).Sublist (readingOf items) := by
  induction retains with
  | nil => exact .slnil
  | word _ ih => exact ih.append_left _
  | part _ ih => exact ih.append_left _
  | skip _ _ _ ih => exact ih.cons _

end Retains

/-- What a node made of items has for a reading, in whatever order its constituents are kept. -/
theorem Production.reading_perm {first last : Token} {span : Span} {form : Form Node}
    (made : Production phrase items first last span form) (id : NodeId) :
    ∃ slots, (Node.reading ⟨id, span, form⟩).Perm (readingOfSlots slots) ∧ Retains slots items := by
  obtain ⟨nodes, arranged, kept⟩ := made.retains
  have arranged := (Node.children_perm ⟨id, span, form⟩).trans arranged.perm.symm
  have slots : (Node.slots ⟨id, span, form⟩).Perm (form.slots nodes) := by
    refine (Form.slots_perm ..).trans (.trans ?_ (Form.slots_perm ..).symm)
    exact (arranged.map _).append_left _
  refine ⟨_, ?_, kept⟩
  rw [Node.reading_eq]
  exact slots.flatMap_right _

/-- What the trees among items have to do with the tokens that the items take. -/
structure Yields (items : List Item) (used : List Token) : Prop where
  starts : ((nodesOf items).map (·.start)).Sublist
    ((wordsOf used).map (·.span.start))
  content_eq : WordsInOrder used → contentOf (readingOf items) = contentOf used
  content_perm : (contentOf (readingOf items)).Perm (contentOf used)
  subperm : (readingOf items).Subperm used

namespace Yields

theorem nil : Yields [] [] := ⟨.slnil, fun _ => rfl, .refl _, .refl _⟩

theorem append {items' : List Item} {used used' : List Token} (first : Yields items used)
    (second : Yields items' used') : Yields (items ++ items') (used ++ used') where
  starts := by
    rw [nodesOf_append, List.map_append, wordsOf_append, List.map_append]
    exact first.starts.append second.starts
  content_eq ordered := by
    rw [readingOf, List.flatMap_append, contentOf_append, contentOf_append]
    have left := first.content_eq (ordered.of_sublist (List.sublist_append_left ..))
    have right := second.content_eq (ordered.of_sublist (List.sublist_append_right ..))
    exact congrArg₂ _ left right
  content_perm := by
    rw [readingOf, List.flatMap_append, contentOf_append, contentOf_append]
    exact first.content_perm.append second.content_perm
  subperm := by
    rw [readingOf, List.flatMap_append]
    exact first.subperm.append second.subperm

theorem word (t : Token) : Yields [.word t] [t] where
  starts := List.nil_sublist _
  content_eq _ := rfl
  content_perm := .refl _
  subperm := .refl _

/-- The items of a phrase in one. -/
theorem part {first last : Token} {span : Span} {form : Form Node} {used : List Token}
    (within : Yields items used) (made : Production phrase items first last span form)
    (id : NodeId) (start : [span.start].Sublist
      ((wordsOf used).map (·.span.start))) :
    Yields [.part phrase ⟨id, span, form⟩] used where
  starts := start
  content_eq ordered := by
    have apart : (nodesOf items).Pairwise (·.start < ·.start) := by
      have words := List.pairwise_map.2 ordered
      exact List.pairwise_map.1 (words.sublist within.starts)
    have kept := (made.retains_slots id apart).content_eq
    rw [readingOf, List.flatMap_singleton, Item.reading, Node.reading_eq]
    exact kept.trans (within.content_eq ordered)
  content_perm := by
    obtain ⟨slots, same, kept⟩ := made.reading_perm id
    rw [readingOf, List.flatMap_singleton]
    refine (same.filter _).trans ?_
    have content := kept.content_eq
    unfold contentOf at content
    rw [content]
    exact within.content_perm
  subperm := by
    obtain ⟨slots, same, kept⟩ := made.reading_perm id
    rw [readingOf, List.flatMap_singleton]
    exact same.subperm.trans (kept.sublist.subperm.trans within.subperm)

/-- What the end of a line takes counts for nothing. -/
theorem contentOf_ending {ending : List Item} {used : List Token} (closing : Yields ending used)
    (ends : Ending ending) : contentOf used = [] := by
  have plain : contentOf (readingOf ending) = [] := by
    cases ends with
    | none => rfl
    | newline line =>
      apply List.filter_cons_of_neg
      rw [line]
      exact Bool.false_ne_true
  have perm := closing.content_perm
  rw [plain] at perm
  exact List.nil_perm.1 perm

/-- More tokens may be taken that count for nothing. -/
theorem behind {used used' : List Token} (yields : Yields items used)
    (plain : contentOf used' = []) : Yields items (used ++ used') where
  starts := by
    rw [wordsOf_append, List.map_append]
    exact yields.starts.trans (List.sublist_append_left ..)
  content_eq ordered := by
    rw [contentOf_append, plain, List.append_nil]
    exact yields.content_eq (ordered.of_sublist (List.sublist_append_left ..))
  content_perm := by
    rw [contentOf_append, plain, List.append_nil]
    exact yields.content_perm
  subperm := yields.subperm.trans (List.sublist_append_left ..).subperm

end Yields

/-- A phrase begins at the first of the tokens it is read from, and that is a word. -/
theorem Reads.firstWord {inner : List Item} {first : Token} {span : Span} {form : Form Node}
    {used : List Token} (within : Reads inner c c') (begins : first = c.upcoming)
    (made : Production phrase inner first c'.last span form) (taken : c.rest = used ++ c'.rest) :
    ∃ t others, used = t :: others ∧ t.kind.isLayout = false ∧ span.start = t.span.start := by
  have whole := Reads.part begins made within (.nil c') .none (.nil _)
  obtain ⟨t, rest, ahead, word, start⟩ := whole.begins rfl
  have shorter := within.rest_lt made.ne_nil
  cases used with
  | nil =>
    rw [taken] at shorter
    exact absurd shorter (Nat.lt_irrefl _)
  | cons u used =>
    rw [taken, List.cons_append, List.cons.injEq] at ahead
    obtain ⟨rfl, -⟩ := ahead
    exact ⟨u, used, rfl, word, start⟩

theorem Reads.yields (reads : Reads items c c') :
    ∃ used, c.rest = used ++ c'.rest ∧ Yields items used := by
  induction reads with
  | nil c => exact ⟨[], rfl, .nil⟩
  | @word t rest items c c' ahead others ih =>
    obtain ⟨used, taken, yields⟩ := ih
    refine ⟨t :: used, ?_, (Yields.word t).append yields⟩
    rw [ahead, List.cons_append, ← taken]
    rfl
  | @part phrase inner closing first span form items c c₁ c₂ c' begins made within closed ends
      others ih_within ih_closed ih_others =>
    obtain ⟨used₁, taken₁, yields₁⟩ := ih_within
    obtain ⟨used₂, taken₂, yields₂⟩ := ih_closed
    obtain ⟨used₃, taken₃, yields₃⟩ := ih_others
    have start : [span.start].Sublist
        ((wordsOf used₁).map (·.span.start)) := by
      obtain ⟨t, others, rfl, word, start⟩ := within.firstWord begins made taken₁
      have counted : wordsOf (t :: others) = t :: wordsOf others := by
        apply List.filter_cons_of_pos
        rw [word]
        rfl
      rw [counted, List.map_cons, ← start]
      exact List.singleton_sublist.2 List.mem_cons_self
    refine ⟨used₁ ++ used₂ ++ used₃, ?_, ?_⟩
    · rw [taken₁, taken₂, List.append_assoc, List.append_assoc]
      exact congrArg _ (congrArg _ taken₃)
    · have plain := Yields.contentOf_ending yields₂ ends
      exact ((yields₁.part made c₂.nextId start).behind plain).append yields₃

/-- The numbers of all nodes among items and below them. -/
def numbersOf (items : List Item) : List NodeId :=
  (nodesOf items).flatMap fun n => n.descendants.map (·.id)

theorem Production.numbers_perm {first last : Token} {span : Span} {form : Form Node}
    (made : Production phrase items first last span form) (id : NodeId) :
    ((Node.descendants ⟨id, span, form⟩).map (·.id)).Perm (id :: numbersOf items) := by
  have below := (Node.children_perm ⟨id, span, form⟩).trans made.nodesOf_perm.symm
  rw [Node.descendants_eq, List.map_cons, List.map_flatMap]
  exact (below.flatMap_right _).cons id

/-- The nodes among items and below them have different numbers from `low` on and below `high`. -/
structure Numbered (items : List Item) (low high : NodeId) : Prop where
  le : low ≤ high
  range : ∀ i ∈ numbersOf items, low ≤ i ∧ i < high
  apart : (numbersOf items).Nodup

namespace Numbered

variable {low middle high : NodeId}

theorem nil (n : NodeId) : Numbered [] n n := by
  refine ⟨Nat.le_refl _, ?_, .nil⟩
  intro i member
  cases member

theorem append {items' : List Item} (first : Numbered items low middle)
    (second : Numbered items' middle high) : Numbered (items ++ items') low high := by
  have both : numbersOf (items ++ items') = numbersOf items ++ numbersOf items' := by
    unfold numbersOf
    rw [nodesOf_append, List.flatMap_append]
  refine ⟨Nat.le_trans first.le second.le, ?_, ?_⟩
  · rw [both]
    intro i member
    rcases List.mem_append.1 member with member | member
    · have bounds := first.range i member
      exact ⟨bounds.1, Nat.lt_of_lt_of_le bounds.2 second.le⟩
    · have bounds := second.range i member
      exact ⟨Nat.le_trans first.le bounds.1, bounds.2⟩
  · rw [both, List.nodup_append]
    refine ⟨first.apart, second.apart, ?_⟩
    intro i left j right equal
    have less : i < j := Nat.lt_of_lt_of_le (first.range i left).2 (second.range j right).1
    rw [equal] at less
    exact Nat.lt_irrefl _ less

theorem widen (numbered : Numbered items low middle) (le : middle ≤ high) :
    Numbered items low high := by
  refine ⟨Nat.le_trans numbered.le le, ?_, numbered.apart⟩
  intro i member
  have bounds := numbered.range i member
  exact ⟨bounds.1, Nat.lt_of_lt_of_le bounds.2 le⟩

/-- A node is numbered behind all that is below it. -/
theorem part {first last : Token} {span : Span} {form : Form Node}
    (within : Numbered items low high) (made : Production phrase items first last span form) :
    Numbered [.part phrase ⟨high, span, form⟩] low (high + 1) := by
  have same : (numbersOf [.part phrase ⟨high, span, form⟩]).Perm (high :: numbersOf items) := by
    rw [numbersOf, nodesOf_part, nodesOf_nil, List.flatMap_singleton]
    exact made.numbers_perm high
  refine ⟨Nat.le_succ_of_le within.le, ?_, ?_⟩
  · intro i member
    rcases List.mem_cons.1 (same.mem_iff.1 member) with rfl | member
    · exact ⟨within.le, Nat.lt_succ_self _⟩
    · have bounds := within.range i member
      exact ⟨bounds.1, Nat.lt_succ_of_lt bounds.2⟩
  · rw [same.nodup_iff, List.nodup_cons]
    refine ⟨?_, within.apart⟩
    intro member
    exact Nat.lt_irrefl _ (within.range _ member).2

end Numbered

/-- Nodes are numbered as they are made, so no two nodes have one number. -/
theorem Reads.numbered (reads : Reads items c c') : Numbered items c.nextId c'.nextId := by
  induction reads with
  | nil c => exact .nil _
  | word ahead others ih => exact ⟨ih.le, ih.range, ih.apart⟩
  | part begins made within closed ends others ih_within ih_closed ih_others =>
    exact ((ih_within.widen ih_closed.le).part made).append ih_others

end TekLang
