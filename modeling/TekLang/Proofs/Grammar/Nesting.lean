import Mathlib.Data.List.TakeWhile
import TekLang.Proofs.Grammar.Arrangement

/-!
# How the spans of a tree nest

Every node of the tree of a text spans from a word that it was read from to a token that it was read
from, so nodes of neighbouring phrases do not overlap and a node spans all that is below it. That
holds of a tree with faults as well, for what is passed over only makes the gaps wider. `Extent` is
what the induction on `Reads` carries along; it speaks of nothing but the order of the tokens.
-/

namespace TekLang

variable {phrase : Phrase} {items : List Item} {c c' : Cursor}

/-- Where the node of a phrase stops: where the token read last does, or else with its last item. -/
theorem Production.stop {first last : Token} {span : Span} {form : Form Node}
    (made : Production phrase items first last span form) :
    span.stop = last.span.stop ∨
    (∃ others t, items = others ++ [.word t] ∧ span.stop = t.span.stop) ∨
    ∃ others inner n, items = others ++ [.part inner n] ∧ span.stop = n.span.stop := by
  cases made with
  | identifier | literal | this | super | jumpStmt => exact .inr (.inl ⟨[], _, rfl, rfl⟩)
  | member => exact .inr (.inl ⟨[_, _], _, rfl, rfl⟩)
  | instanceMember | expressionStmt => exact .inr (.inr ⟨[], _, _, rfl, rfl⟩)
  | unary | async | staticMember => exact .inr (.inr ⟨[_], _, _, rfl, rfl⟩)
  | binary | instanceOf | assignment => exact .inr (.inr ⟨[_, _], _, _, rfl, rfl⟩)
  | _ => exact .inl rfl

/-- Behind a word that is read last it is the token read last. -/
theorem Reads.last_word {others : List Item} {t : Token} (reads : Reads items c c')
    (word : items = others ++ [.word t]) : c'.last = t := by
  induction reads generalizing others with
  | nil => cases others <;> cases word
  | word ahead behind ih =>
    cases others with
    | nil =>
      cases word
      cases behind
      rfl
    | cons item others =>
      cases word
      exact ih rfl
  | part _ _ _ _ _ _ _ _ ih =>
    cases others with
    | nil => cases word
    | cons item others =>
      cases word
      exact ih rfl

/-- The last of some tokens, or the one in front of them. -/
theorem last_append (t : Token) (used used' : List Token) :
    (used ++ used').getLastD t = used'.getLastD (used.getLastD t) := by
  cases used' with
  | nil => simp
  | cons u used' => simp

/-- The nodes stand one behind another, each from a word among the tokens to a token among them. -/
structure Extent (ns : List Node) (used : List Token) : Prop where
  start : ∀ n ∈ ns, ∃ t ∈ used, t.kind.isLayout = false ∧ n.span.start = t.span.start
  stop : ∀ n ∈ ns, ∃ t ∈ used, n.span.stop = t.span.stop
  proper : ∀ n ∈ ns, n.span.start < n.span.stop
  apart : ns.Pairwise (·.span.stop ≤ ·.span.start)

/-- A node spans its children, and these take up some text and stand one behind another. -/
structure Node.Nests (n : Node) : Prop where
  forward : n.span.start ≤ n.span.stop
  contains : ∀ child ∈ n.children, n.span.Contains child.span
  proper : ∀ child ∈ n.children, child.span.start < child.span.stop
  apart : n.children.Pairwise (·.span.stop ≤ ·.span.start)

namespace Extent

variable {ns ms : List Node} {used used' : List Token}

theorem nil (used : List Token) : Extent [] used :=
  ⟨List.forall_mem_nil _, List.forall_mem_nil _, List.forall_mem_nil _, .nil⟩

theorem widen (extent : Extent ns used) (more : used ⊆ used') : Extent ns used' where
  start n there := by
    obtain ⟨t, among, start⟩ := extent.start n there
    exact ⟨t, more among, start⟩
  stop n there := by
    obtain ⟨t, among, stop⟩ := extent.stop n there
    exact ⟨t, more among, stop⟩
  proper := extent.proper
  apart := extent.apart

/-- What is read later stands behind what was read before. -/
theorem append (first : Extent ns used) (second : Extent ms used')
    (ordered : InTextOrder (used ++ used')) : Extent (ns ++ ms) (used ++ used') := by
  have left := first.widen (List.subset_append_left used used')
  have right := second.widen (List.subset_append_right used used')
  refine ⟨?_, ?_, ?_, List.pairwise_append.2 ⟨first.apart, second.apart, ?_⟩⟩
  · exact List.forall_mem_append.2 ⟨left.start, right.start⟩
  · exact List.forall_mem_append.2 ⟨left.stop, right.stop⟩
  · exact List.forall_mem_append.2 ⟨left.proper, right.proper⟩
  · intro n there m behind
    obtain ⟨t, among, stop⟩ := first.stop n there
    obtain ⟨u, among', word, start⟩ := second.start m behind
    rw [stop, start]
    exact ((List.pairwise_append.1 ordered.ordered).2.2 t among u among').apart word

/-- Nodes that stand one behind another start one behind another. -/
theorem starts (extent : Extent ns used) : ns.Pairwise (·.start < ·.start) := by
  refine extent.apart.imp_of_mem ?_
  intro n m there _ apart
  exact Position.lt_of_lt_of_le (extent.proper n there) apart

end Extent

/-- A phrase stops where one of the tokens it is read from does, and none of its constituents stops
    behind it. -/
theorem Extent.phrase_stop {inner : List Item} {first : Token} {span : Span} {form : Form Node}
    {used : List Token} (extent : Extent (nodesOf inner) used) (within : Reads inner c c')
    (made : Production phrase inner first c'.last span form) (some : used ≠ [])
    (last : c'.last = used.getLastD c.last) (ordered : InTextOrder used) :
    ∃ u ∈ used, span.stop = u.span.stop ∧ ∀ n ∈ nodesOf inner, n.span.stop ≤ u.span.stop := by
  obtain ⟨front, u, rfl⟩ := (List.eq_nil_or_concat' used).resolve_left some
  have last : c'.last = u := by simpa using last
  have among : u ∈ front ++ [u] := List.mem_append_right _ List.mem_cons_self
  have below : ∀ n ∈ nodesOf inner, n.span.stop ≤ u.span.stop := by
    intro n there
    obtain ⟨t, among, stop⟩ := extent.stop n there
    rw [stop]
    exact ordered.stop_last among
  rcases made.stop with stop | ⟨others, t, ending, stop⟩ | ⟨others, inner', n, ending, stop⟩
  · rw [last] at stop
    exact ⟨u, among, stop, below⟩
  · rw [← within.last_word ending, last] at stop
    exact ⟨u, among, stop, below⟩
  · rw [ending, nodesOf_append] at extent ⊢
    have ends : n ∈ nodesOf others ++ nodesOf [.part inner' n] :=
      List.mem_append_right _ List.mem_cons_self
    obtain ⟨t, among, same⟩ := extent.stop n ends
    refine ⟨t, among, stop.trans same, ?_⟩
    rw [← same]
    intro m there
    rcases List.mem_append.1 there with there | there
    · have apart := (List.pairwise_append.1 extent.apart).2.2 m there n List.mem_cons_self
      exact Position.le_trans apart (Position.le_of_lt (extent.proper n ends))
    · obtain rfl := List.mem_singleton.1 there
      exact Position.le_refl _

/-- The node of a phrase spans its constituents, and itself stands among the tokens it is read
    from. -/
theorem Extent.part {inner : List Item} {first : Token} {span : Span} {form : Form Node}
    {used : List Token} (extent : Extent (nodesOf inner) used) (within : Reads inner c c')
    (begins : first = c.upcoming) (made : Production phrase inner first c'.last span form)
    (taken : c.rest = used ++ c'.rest) (last : c'.last = used.getLastD c.last)
    (ordered : InTextOrder used) (id : NodeId) :
    Extent [⟨id, span, form⟩] used ∧ Node.Nests ⟨id, span, form⟩ := by
  obtain ⟨t, others, rfl, word, start⟩ := within.firstWord begins made taken
  obtain ⟨u, among, stop, above⟩ :=
    extent.phrase_stop within made (List.cons_ne_nil _ _) last ordered
  have proper : span.start < span.stop := by
    have le := ordered.head_stop among
    rw [start, stop]
    exact Position.lt_of_lt_of_le ((ordered.extent t List.mem_cons_self).word word) le
  refine ⟨⟨?_, ?_, ?_, List.pairwise_singleton _ _⟩, ?_⟩
  · exact List.forall_mem_singleton.2 ⟨t, List.mem_cons_self, word, start⟩
  · exact List.forall_mem_singleton.2 ⟨u, among, stop⟩
  · exact List.forall_mem_singleton.2 proper
  · have children := made.children_eq id extent.starts
    refine ⟨Position.le_of_lt proper, ?_, ?_, ?_⟩
    · rw [children]
      intro n there
      obtain ⟨v, among, -, begun⟩ := extent.start n there
      refine ⟨?_, ?_⟩
      · rw [start, begun]
        exact ordered.head_start among
      · rw [stop]
        exact above n there
    · rw [children]
      exact extent.proper
    · rw [children]
      exact extent.apart

/-- The nodes that are read stand in the order of the text one behind another. -/
theorem Reads.extent (reads : Reads items c c') (ordered : InTextOrder c.rest) :
    ∃ used, c.rest = used ++ c'.rest ∧ c'.last = used.getLastD c.last ∧
      Extent (nodesOf items) used := by
  induction reads with
  | nil c => exact ⟨[], rfl, rfl, .nil _⟩
  | @word t rest items c c' ahead _ ih =>
    rw [ahead] at ordered ⊢
    obtain ⟨used, taken, last, extent⟩ := ih (ordered.of_sublist (List.sublist_cons_self ..))
    refine ⟨t :: used, congrArg (t :: ·) taken, ?_, extent.widen (List.subset_cons_self ..)⟩
    rw [last]
    cases used <;> rfl
  | @part phrase inner closing first span form items c c₁ c₂ c' begins made within closed ends
      others ih_within ih_closed ih_others =>
    obtain ⟨used₁, taken₁, last₁, extent₁⟩ := ih_within ordered
    rw [taken₁] at ordered
    obtain ⟨used₂, taken₂, last₂, -⟩ :=
      ih_closed (ordered.of_sublist (List.sublist_append_right ..))
    rw [taken₂, ← List.append_assoc] at ordered
    obtain ⟨used₃, taken₃, last₃, extent₃⟩ :=
      ih_others (ordered.of_sublist (List.sublist_append_right ..))
    have taken₃ : c₂.rest = used₃ ++ c'.rest := taken₃
    rw [taken₃, ← List.append_assoc] at ordered
    have read := ordered.of_sublist (List.sublist_append_left ..)
    have inside := (read.of_sublist (List.sublist_append_left ..)).of_sublist
      (List.sublist_append_left ..)
    have alone := (extent₁.part within begins made taken₁ last₁ inside c₂.nextId).1
    refine ⟨used₁ ++ used₂ ++ used₃, ?_, ?_, ?_⟩
    · rw [taken₁, taken₂, taken₃, List.append_assoc, List.append_assoc]
    · rw [last_append, last_append, ← last₁, ← last₂]
      exact last₃
    · have wider := alone.widen (List.subset_append_left used₁ used₂)
      exact wider.append extent₃ read

/-- A node that is read from tokens in the order of a text spans its children. -/
theorem Node.IsRead.nests {n : Node} (read : n.IsRead c) (ordered : InTextOrder c.rest) :
    n.Nests := by
  cases read with
  | mk behind made within =>
    have ordered := ordered.of_sublist behind.sublist
    obtain ⟨used, taken, last, extent⟩ := within.extent ordered
    rw [taken] at ordered
    have inside := ordered.of_sublist (List.sublist_append_left ..)
    exact (extent.part within rfl made taken last inside _).2

/-- The declarations of a program stand in the order of the text, with faults and without. -/
theorem ReadsProgram.extent {top : TopLevel} (reads : ReadsProgram c top)
    (ordered : InTextOrder c.rest) : Extent top.body c.rest := by
  induction reads with
  | done => exact .nil _
  | skip ahead _ _ ih =>
    rw [ahead] at ordered ⊢
    have extent := ih (ordered.of_sublist (List.sublist_cons_self ..))
    exact extent.widen (List.subset_cons_self ..)
  | declaration run _ ih =>
    have reads := Parser.construct_follows.declaration.reads run
    obtain ⟨used, taken, -, first⟩ := reads.extent ordered
    rw [taken] at ordered ⊢
    exact first.append (ih (ordered.of_sublist (List.sublist_append_right ..))) ordered
  | @fault c c' e top run _ ih =>
    have moves := (Parser.advances_construct .declaration).forward.error run
    have behind := (c'.recover_suffix.trans moves.rest_suffix).sublist
    exact (ih (ordered.of_sublist behind)).widen behind.subset

/-- The end of input that is made up for tokens stands behind them. -/
theorem InTextOrder.endOfInput {tokens : List Token} (ordered : InTextOrder tokens) :
    InTextOrder (tokens ++ [endOfInput tokens]) := by
  rcases List.eq_nil_or_concat' tokens with rfl | ⟨front, last, rfl⟩
  · exact .singleton ⟨Position.le_refl _, Bool.noConfusion⟩
  · have stop : TekLang.endOfInput (front ++ [last]) = .silent .eof (.point last.span.stop) := by
      simp [TekLang.endOfInput]
    rw [stop]
    refine ⟨?_, List.pairwise_append.2 ⟨ordered.ordered, List.pairwise_singleton _ _, ?_⟩⟩
    · refine List.forall_mem_append.2 ⟨ordered.extent, List.forall_mem_singleton.2 ?_⟩
      exact ⟨Position.le_refl _, Bool.noConfusion⟩
    · intro t there u same
      obtain rfl := List.mem_singleton.1 same
      have le := ordered.stop_last there
      exact ⟨Position.le_trans (ordered.extent t there).forward le, le, Bool.noConfusion⟩

/-- The tokens that a program is read from and the end of input stand in order. -/
theorem InTextOrder.ofTokens {tokens : List Token} (ordered : InTextOrder tokens) :
    InTextOrder ((Cursor.ofTokens tokens).rest ++ [(Cursor.ofTokens tokens).stop]) := by
  unfold Cursor.ofTokens
  cases found : tokens.find? (·.kind = .eof) with
  | none =>
    have whole : tokens.takeWhile (·.kind ≠ .eof) = tokens := by
      rw [List.takeWhile_eq_self_iff]
      intro t there
      simpa using List.find?_eq_none.1 found t there
    rw [whole]
    exact ordered.endOfInput
  | some stop =>
    obtain ⟨ends, front, behind, rfl, before⟩ := List.find?_eq_some_iff_append.1 found
    have read : (front ++ stop :: behind).takeWhile (·.kind ≠ .eof) = front := by
      rw [List.takeWhile_append_of_pos (by simpa using before),
        List.takeWhile_cons_of_neg (by simpa using ends), List.append_nil]
    rw [read]
    have more : (front ++ [stop]).Sublist (front ++ stop :: behind) := by simp
    exact ordered.of_sublist more

/-- A program spans what stands at its top. -/
theorem nests_program {rest : List Token} {stop : Token} {body : List Node}
    (ordered : InTextOrder (rest ++ [stop])) (extent : Extent body rest) (id : NodeId) :
    Node.Nests ⟨id, (rest.headD stop).span.through stop.span, .program body⟩ := by
  have first (t : Token) (there : t ∈ rest ++ [stop]) :
      (rest.headD stop).span.start ≤ t.span.start := by
    cases rest <;> exact ordered.head_start there
  have last := ordered.extent stop (by simp)
  refine ⟨Position.le_trans (first stop (by simp)) last.forward, ?_, extent.proper, extent.apart⟩
  intro child there
  obtain ⟨t, among, -, start⟩ := extent.start child there
  obtain ⟨u, among', stop'⟩ := extent.stop child there
  refine ⟨?_, ?_⟩
  · rw [start]
    exact first t (List.mem_append_left _ among)
  · rw [stop']
    exact ordered.stop_last (List.mem_append_left _ among')

/-- In the tree of tokens that stand in the order of a text all nodes span their children. -/
theorem parse_nests {tokens : List Token} (ordered : InTextOrder tokens) :
    ∀ n ∈ (parse tokens).program.descendants, n.Nests := by
  have ordered := ordered.ofTokens
  have read := ordered.of_sublist (List.sublist_append_left ..)
  intro n there
  rcases parse_isRead there with rfl | isRead
  · have reads := topLevel_reads _ (Nat.le_refl (Cursor.ofTokens tokens).rest.length)
    rw [parse_eq]
    exact nests_program ordered (reads.extent read) _
  · exact isRead.nests read

/-- With faults and without, every node of the tree of a text stops no earlier than it starts and
    contains its children, and of two neighbouring children the second starts no earlier than the
    first stops. -/
theorem parse_spans_nest (source : String) :
    ∀ n ∈ (parse (lex source).tokens).program.descendants,
      n.span.start ≤ n.span.stop ∧ (∀ child ∈ n.children, n.span.Contains child.span) ∧
        n.children.Pairwise (·.span.stop ≤ ·.span.start) := by
  intro n below
  have nests := parse_nests (inTextOrder_lex source) n below
  exact ⟨nests.forward, nests.contains, nests.apart⟩

/-- A text with a stray sign between two statements. -/
theorem parse_spans_nest_stray :
    let source := "a = b\n)\nc(d)\n"
    let program := (parse (lex source).tokens).program
    program ∈ program.descendants ∧ program.span.start ≤ program.span.stop ∧
      (∀ child ∈ program.children, program.span.Contains child.span) ∧
      program.children.Pairwise (·.span.stop ≤ ·.span.start) := by
  intro source program
  have below : program ∈ program.descendants := by
    rw [Node.descendants_eq]
    exact List.mem_cons_self
  exact ⟨below, parse_spans_nest source program below⟩

end TekLang
