import TekLang.Proofs.Grammar.Conformance

/-!
# The order of a tree

The tree of a text keeps the order of the text, with faults and without: the members of a class come
back in the order in which they were read, and what is declared and named in the tree stands in it
from left to right. `Node.IsRead` says of a node how it was read; what holds of a node because of
that holds of every node of a tree but the program.
-/

namespace TekLang

variable {phrase : Phrase} {items : List Item} {c c' : Cursor}

theorem Reads.rest_suffix (reads : Reads items c c') : c'.rest <:+ c.rest := by
  obtain ⟨used, taken, -⟩ := reads.yields
  exact ⟨used, taken.symm⟩

/-- How a node was read: its items from somewhere behind `c` on, then perhaps the end of a line. -/
inductive Node.IsRead (c : Cursor) : Node → Prop
  | mk {phrase inner closing span form c₀ c₁ c₂} (behind : c₀.rest <:+ c.rest)
    (made : Production phrase inner c₀.upcoming c₁.last span form) (within : Reads inner c₀ c₁)
    (closed : Reads closing c₁ c₂) (ends : Ending closing) : IsRead c ⟨c₂.nextId, span, form⟩

theorem Node.IsRead.behind {n : Node} (read : n.IsRead c')
    (behind : c'.rest <:+ c.rest) : n.IsRead c := by
  cases read with
  | mk further made within closed ends => exact .mk (further.trans behind) made within closed ends

/-- Every node below items that were read was read itself. -/
theorem Reads.isRead (reads : Reads items c c') :
    ∀ n ∈ nodesOf items, ∀ m ∈ n.descendants, m.IsRead c := by
  induction reads with
  | nil => exact List.forall_mem_nil _
  | @word t rest _ c _ ahead _ ih =>
    have behind : rest <:+ c.rest := by
      rw [ahead]
      exact List.suffix_cons t rest
    intro n there m under
    exact (ih n there m under).behind behind
  | @part phrase inner closing first span form items c c₁ c₂ c' begins made within closed ends
      others ih_within _ ih_others =>
    intro n there m under
    rcases List.mem_cons.1 there with rfl | there
    · rw [Node.descendants_eq] at under
      rcases List.mem_cons.1 under with rfl | under
      · rw [begins] at made
        exact .mk (List.suffix_refl _) made within closed ends
      · obtain ⟨child, part, under⟩ := List.mem_flatMap.1 under
        exact ih_within child (made.nodesOf_perm.mem_iff.2 (Node.mem_children.1 part)) m under
    · exact (ih_others n there m under).behind (closed.rest_suffix.trans within.rest_suffix)

theorem ReadsProgram.isRead {top : TopLevel} (reads : ReadsProgram c top) :
    ∀ n ∈ top.body, ∀ m ∈ n.descendants, m.IsRead c := by
  induction reads with
  | done => exact List.forall_mem_nil _
  | @skip c t rest _ ahead _ _ ih =>
    have behind : rest <:+ c.rest := by
      rw [ahead]
      exact List.suffix_cons t rest
    intro n there m under
    exact (ih n there m under).behind behind
  | declaration run _ ih =>
    have reads := Parser.construct_follows.declaration.reads run
    intro n there m under
    rcases List.mem_cons.1 there with rfl | there
    · exact reads.isRead n List.mem_cons_self m under
    · exact (ih n there m under).behind reads.rest_suffix
  | @fault c c' e top run _ ih =>
    have moves := (Parser.advances_construct .declaration).forward.error run
    intro n there m under
    exact (ih n there m under).behind (c'.recover_suffix.trans moves.rest_suffix)

/-- Every node of a tree but the program was read. -/
theorem parse_isRead {tokens : List Token} {n : Node}
    (below : n ∈ (parse tokens).program.descendants) :
    n = (parse tokens).program ∨ n.IsRead (.ofTokens tokens) := by
  obtain ⟨top, span, reads, tree⟩ := parse_reads tokens
  rw [Node.descendants_eq] at below
  rcases List.mem_cons.1 below with same | below
  · exact .inl same
  · obtain ⟨child, there, under⟩ := List.mem_flatMap.1 below
    rw [tree] at there
    exact .inr (reads.isRead child there n under)

/-- Nodes that are read from words in order start one behind another. -/
theorem Reads.starts (reads : Reads items c c') (ordered : WordsInOrder c.rest) :
    (nodesOf items).Pairwise (·.start < ·.start) := by
  obtain ⟨used, taken, yields⟩ := reads.yields
  have front : (wordsOf used).Sublist (wordsOf c.rest) := by
    rw [taken]
    exact (List.sublist_append_left ..).filter _
  have words := List.pairwise_map.2 (ordered.sublist front)
  exact List.pairwise_map.1 (words.sublist yields.starts)

/-- The constituents of a node that is read from words in order are arranged as they were read. -/
theorem Node.IsRead.arranged {n : Node} (read : n.IsRead c) (ordered : WordsInOrder c.rest) :
    n.form.Arranges n.children := by
  cases read with
  | @mk _ inner _ _ form _ _ _ behind made within =>
    have apart := within.starts (ordered.of_sublist behind.sublist)
    obtain ⟨nodes, arranged, kept⟩ := made.retains
    rw [← kept.nodes_eq, form.nodes_slots] at apart
    rwa [arranged.eq_children apart]

/-- Faults or none, what a program spells stands in the tokens that it was read from. -/
theorem ReadsProgram.content_sublist {top : TopLevel} (reads : ReadsProgram c top)
    (ordered : WordsInOrder c.rest) :
    (contentOf (top.body.flatMap Node.reading)).Sublist c.rest := by
  induction reads with
  | done => exact List.nil_sublist _
  | skip ahead _ _ ih =>
    rw [ahead] at ordered ⊢
    exact (ih (ordered.of_sublist (List.sublist_cons_self ..))).cons _
  | declaration run _ ih =>
    obtain ⟨used, taken, yields⟩ := construct_yields run
    rw [taken] at ordered ⊢
    have first := yields.content_eq (ordered.of_sublist (List.sublist_append_left ..))
    rw [readingOf, List.flatMap_singleton] at first
    rw [List.flatMap_cons, contentOf_append]
    refine List.Sublist.append ?_ (ih (ordered.of_sublist (List.sublist_append_right ..)))
    exact first ▸ List.filter_sublist
  | @fault c c' e top run _ ih =>
    have moves := (Parser.advances_construct .declaration).forward.error run
    have behind := (c'.recover_suffix.trans moves.rest_suffix).sublist
    exact (ih (ordered.of_sublist behind)).trans behind

theorem wordsInOrder_ofTokens (source : String) :
    WordsInOrder (Cursor.ofTokens (lex source).tokens).rest :=
  (wordsInOrder_lex source).of_sublist (List.takeWhile_sublist _)

/-- In the tree of a text all constituents are arranged as they were read. -/
theorem parse_arranges (source : String) : ∀ n ∈ (parse (lex source).tokens).program.descendants,
    n.form.Arranges n.children := by
  intro n below
  rcases parse_isRead below with rfl | read
  · obtain ⟨id, span, body, tree, -⟩ := parse_conforms (lex source).tokens
    rw [tree]
    exact .fields _
  · exact read.arranged (wordsInOrder_ofTokens source)

theorem wordsOf_contentOf (ts : List Token) : wordsOf (contentOf ts) = contentOf ts := by
  refine List.filter_eq_self.2 ?_
  intro t there
  have content := (List.mem_filter.1 there).2
  cases kind : t.kind <;> first | rfl | rw [kind] at content; cases content

/-- Reading the tree of a text passes what it spells from left to right. -/
theorem parse_reading_inOrder (source : String) :
    (contentOf (parse (lex source).tokens).program.reading).Pairwise
      (·.span.start < ·.span.start) := by
  obtain ⟨top, span, reads, tree⟩ := parse_reads (lex source).tokens
  have ordered := wordsInOrder_ofTokens source
  have words := (reads.content_sublist ordered).filter (!·.kind.isLayout)
  rw [tree, Node.reading_program, ← wordsOf_contentOf]
  exact ordered.sublist words

theorem kind_of_optionally {mark kind : TokenKind} {t : Token}
    (optional : Optionally mark (IsWord kind) (some t) items) : t.kind = kind := by
  cases optional with
  | some _ word =>
    cases word with
    | mk same => exact same

theorem kind_of_mem_each {mark kind : TokenKind} {ts : List Token}
    (each : EachAfter mark (IsWord kind) ts items) : ∀ t ∈ ts, t.kind = kind := by
  induction each with
  | nil => exact List.forall_mem_nil _
  | cons _ word _ ih =>
    cases word with
    | mk same => exact List.forall_mem_cons.2 ⟨same, ih⟩

/-- Whatever is declared in a tree is declared by a name. -/
theorem Production.declaredName {first last : Token} {span : Span} {form : Form Node}
    (made : Production phrase items first last span form) {name : Token}
    (declares : form.declaredName? = some name) : name.kind = .identifier := by
  cases made with
  | generic named | parameter named | functionDecl _ _ named | classDecl _ named
  | forEach _ named | catchClause _ named | variableDecl _ named =>
    cases declares
    exact named
  | @importedName _ rename _ _ _ named renamed =>
    cases rename with
    | none =>
      cases declares
      exact named
    | some rename =>
      cases declares
      exact kind_of_optionally renamed
  | @importDecl _ first others _ rename _ _ _ _ _ _ named path renamed =>
    cases rename with
    | none =>
      have there : name ∈ first :: others := List.mem_of_getLast? declares
      rcases List.mem_cons.1 there with rfl | there
      · exact named
      · exact kind_of_mem_each path name there
    | some rename =>
      cases declares
      exact kind_of_optionally renamed
  | _ => cases declares

theorem parse_declaredName {tokens : List Token} {n : Node}
    (below : n ∈ (parse tokens).program.descendants) {name : Token}
    (declares : n.declaredName? = some name) : name.kind = .identifier := by
  obtain ⟨id, span, body, tree, conforms⟩ := parse_conforms tokens
  rw [tree, Node.descendants_eq] at below
  rcases List.mem_cons.1 below with rfl | below
  · cases declares
  · obtain ⟨child, there, under⟩ := List.mem_flatMap.1 below
    obtain ⟨phrase, conforms⟩ := (conforms child there).of_mem_descendants under
    cases conforms with
    | mk made => exact made.declaredName declares

end TekLang
