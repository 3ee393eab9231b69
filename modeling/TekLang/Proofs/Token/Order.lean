import TekLang.Proofs.Token.Shapes
import TekLang.Proofs.Token.Steps

/-!
# The tokens of a text in order

The tokens of a text stand in the order of the text: none starts or ends in front of an earlier one,
and a word lies wholly behind all that came before it. Tokens of the layout may share a margin. What
carries the induction over the characters is `Scan.edge`, the place up to which everything settled
reaches at most and from which on everything lies that is still to be settled.
-/

namespace TekLang

namespace Token

/-- A token ends no earlier than it starts, and a word takes up some text. -/
structure HasExtent (t : Token) : Prop where
  forward : t.span.start ≤ t.span.stop
  word : t.kind.isLayout = false → t.span.start < t.span.stop

/-- The token `u` starts and ends no earlier than `t` and, if it is a word, lies behind it. -/
structure Before (t u : Token) : Prop where
  start : t.span.start ≤ u.span.start
  stop : t.span.stop ≤ u.span.stop
  apart : u.kind.isLayout = false → t.span.stop ≤ u.span.start

/-- Behind a token lies every token that starts where it ends or later. -/
theorem HasExtent.before {t u : Token} (first : t.HasExtent) (second : u.HasExtent)
    (behind : t.span.stop ≤ u.span.start) : t.Before u where
  start := Position.le_trans first.forward behind
  stop := Position.le_trans behind second.forward
  apart _ := behind

end Token

/-- The tokens stand in the order of a text. -/
structure InTextOrder (ts : List Token) : Prop where
  extent : ∀ t ∈ ts, t.HasExtent
  ordered : ts.Pairwise Token.Before

namespace InTextOrder

theorem of_sublist {ts us : List Token} (ordered : InTextOrder us) (some : ts.Sublist us) :
    InTextOrder ts where
  extent t there := ordered.extent t (some.subset there)
  ordered := ordered.ordered.sublist some

theorem singleton {t : Token} (extent : t.HasExtent) : InTextOrder [t] where
  extent := List.forall_mem_singleton.2 extent
  ordered := List.pairwise_singleton _ _

variable {t u : Token} {ts : List Token}

theorem head_start (ordered : InTextOrder (t :: ts)) (there : u ∈ t :: ts) :
    t.span.start ≤ u.span.start := by
  rcases List.mem_cons.1 there with rfl | there
  · exact Position.le_refl _
  · exact (List.rel_of_pairwise_cons ordered.ordered there).start

theorem head_stop (ordered : InTextOrder (t :: ts)) (there : u ∈ t :: ts) :
    t.span.stop ≤ u.span.stop := by
  rcases List.mem_cons.1 there with rfl | there
  · exact Position.le_refl _
  · exact (List.rel_of_pairwise_cons ordered.ordered there).stop

theorem stop_last (ordered : InTextOrder (ts ++ [t])) (there : u ∈ ts ++ [t]) :
    u.span.stop ≤ t.span.stop := by
  rcases List.mem_append.1 there with there | same
  · exact ((List.pairwise_append.1 ordered.ordered).2.2 u there t List.mem_cons_self).stop
  · obtain rfl := List.mem_singleton.1 same
    exact Position.le_refl _

end InTextOrder

/-- The pieces stand between two places of a text, the tokens among them in its order. -/
structure LieWithin (low high : Position) (ps : List Piece) : Prop where
  inOrder : InTextOrder (tokensOf ps)
  low : ∀ p ∈ ps, low ≤ p.span.start
  high : ∀ p ∈ ps, p.span.stop ≤ high

namespace LieWithin

variable {low middle high : Position} {ps qs : List Piece}

theorem nil (low high : Position) : LieWithin low high [] :=
  ⟨⟨List.forall_mem_nil _, .nil⟩, List.forall_mem_nil _, List.forall_mem_nil _⟩

theorem token {t : Token} (extent : t.HasExtent) (starts : low ≤ t.span.start)
    (stops : t.span.stop ≤ high) : LieWithin low high [.token t] :=
  ⟨.singleton extent, List.forall_mem_singleton.2 starts, List.forall_mem_singleton.2 stops⟩

theorem fault (fault : TextFault) (low high : Position) :
    LieWithin low high [.fault fault ⟨low, high⟩] where
  inOrder := ⟨List.forall_mem_nil _, .nil⟩
  low := List.forall_mem_singleton.2 (Position.le_refl _)
  high := List.forall_mem_singleton.2 (Position.le_refl _)

theorem append (first : LieWithin low middle ps) (second : LieWithin middle high qs)
    (front : low ≤ middle) (back : middle ≤ high) : LieWithin low high (ps ++ qs) where
  inOrder := by
    rw [tokensOf_append]
    refine ⟨?_, List.pairwise_append.2 ⟨first.inOrder.ordered, second.inOrder.ordered, ?_⟩⟩
    · exact List.forall_mem_append.2 ⟨first.inOrder.extent, second.inOrder.extent⟩
    · intro t left u right
      have stops := first.high _ (mem_tokensOf.1 left)
      have behind := Position.le_trans stops (second.low _ (mem_tokensOf.1 right))
      exact (first.inOrder.extent t left).before (second.inOrder.extent u right) behind
  low p there := by
    rcases List.mem_append.1 there with there | there
    · exact first.low p there
    · exact Position.le_trans front (second.low p there)
  high p there := by
    rcases List.mem_append.1 there with there | there
    · exact Position.le_trans (first.high p there) back
    · exact second.high p there

/-- Any number of tokens of the layout may share one place. -/
theorem of_layout {span : Span} (forward : span.start ≤ span.stop)
    (layout : ∀ t ∈ tokensOf ps, t.kind.isLayout = true) (same : ∀ p ∈ ps, p.span = span) :
    LieWithin span.start span.stop ps where
  inOrder := by
    have plain (t : Token) (there : t ∈ tokensOf ps) : t.kind.isLayout ≠ false := by
      rw [layout t there]
      exact Bool.noConfusion
    have place (t : Token) (there : t ∈ tokensOf ps) : t.span = span :=
      same _ (mem_tokensOf.1 there)
    refine ⟨?_, List.pairwise_of_forall_mem_list ?_⟩
    · intro t there
      refine ⟨?_, fun word => absurd word (plain t there)⟩
      rw [place t there]
      exact forward
    · intro t left u right
      have together : t.span = u.span := (place t left).trans (place u right).symm
      refine ⟨?_, ?_, fun word => absurd word (plain u right)⟩
      · rw [together]
        exact Position.le_refl _
      · rw [together]
        exact Position.le_refl _
  low p there := by
    rw [same p there]
    exact Position.le_refl _
  high p there := by
    rw [same p there]
    exact Position.le_refl _

end LieWithin

/-- A word that is being read at `next` started in front of it, and so did its dot in between. -/
structure Lexeme.StartsBefore (l : Lexeme) (next : Position) : Prop where
  start : l.start < next
  dot : ∀ dot, l.shape = .numberDot dot → l.start < dot ∧ dot < next

/-- A word does not begin with the dot of a number. -/
theorem Shape.ofChar_ne_numberDot (c : Char) (dot : Position) : ofChar c ≠ .numberDot dot := by
  intro same
  have begins := begins_ofChar c
  rw [same] at begins
  cases begins

namespace Lexeme

theorem startsBefore_ofChar (start : Position) (c : Char) :
    (ofChar start c).StartsBefore (start.after c) where
  start := Position.lt_after _ _
  dot dot shape := absurd shape (Shape.ofChar_ne_numberDot c dot)

theorem start_of_extend? {l l' : Lexeme} {place : Position} {c : Char}
    (extended : l.extend? place c = some l') :
    l'.start = l.start ∧ ∀ dot, l'.shape = .numberDot dot → dot = place := by
  cases grows_of_extend? extended with
  | dot =>
    refine ⟨rfl, ?_⟩
    intro dot shape
    exact (Shape.numberDot.inj shape).symm
  | word | number | fraction | withEqual | quoted | closed =>
    exact ⟨rfl, fun _ shape => Shape.noConfusion shape⟩

theorem startsBefore_of_extend? {l l' : Lexeme} {place : Position} {c : Char}
    (before : l.StartsBefore place) (extended : l.extend? place c = some l') :
    l'.StartsBefore (place.after c) := by
  obtain ⟨start, dots⟩ := start_of_extend? extended
  have less := Position.lt_after place c
  refine ⟨?_, ?_⟩
  · rw [start]
    exact Position.lt_of_lt_of_le before.start (Position.le_of_lt less)
  · intro dot shape
    rw [start, dots dot shape]
    exact ⟨before.start, less⟩

/-- What a word settles into lies between its start and its end. -/
theorem settle_lieWithin {l : Lexeme} {stop : Position} (before : l.StartsBefore stop) :
    LieWithin l.start stop (l.settle stop) := by
  have piece {kind : TokenKind} {lexeme : String} {low high : Position} (less : low < high) :
      LieWithin low high [.token ⟨kind, lexeme, ⟨low, high⟩⟩] := by
    refine .token ⟨Position.le_of_lt less, fun _ => less⟩ ?_ ?_ <;> exact Position.le_refl _
  unfold settle
  split
  case h_1 | h_2 | h_3 | h_5 => exact piece before.start
  case h_4 dot shape =>
    obtain ⟨low, high⟩ := before.dot dot shape
    exact (piece low).append (piece high) (Position.le_of_lt low) (Position.le_of_lt high)
  case h_6 | h_7 | h_8 => exact .fault _ _ _

end Lexeme

namespace Scan

/-- What is settled reaches no further, and all that is still to be settled starts no earlier. -/
def edge (s : Scan) : Position :=
  match s.place with
  | .margin start _ => start
  | .insideWord l => l.start
  | _ => s.next

theorem edge_margin {s : Scan} {start : Position} {width : Nat}
    (place : s.place = .margin start width) : s.edge = start := by
  unfold edge
  rw [place]

theorem edge_insideWord {s : Scan} {l : Lexeme} (place : s.place = .insideWord l) :
    s.edge = l.start := by
  unfold edge
  rw [place]

theorem edge_quiet {s : Scan} (quiet : s.place = .betweenWords ∨ s.place = .insideComment) :
    s.edge = s.next := by
  unfold edge
  rcases quiet with place | place <;> rw [place]

/-- The pieces settled since the place `low` stand in order in front of the edge, and a word that is
    being read has begun in front of the next character. -/
structure Orders (low : Position) (s : Scan) (ps : List Piece) : Prop where
  settled : LieWithin low s.edge ps
  low_le : low ≤ s.edge
  edge_le : s.edge ≤ s.next
  reading : ∀ l, s.place = .insideWord l → l.StartsBefore s.next

theorem lieWithin_lineEnd (s : Scan) : LieWithin s.next (s.next.after '\n') s.lineEnd := by
  unfold lineEnd
  split
  · refine .token ⟨Position.le_after _ _, ?_⟩ (Position.le_refl _) (Position.le_refl _)
    exact nofun
  · exact .nil _ _

theorem Consumes.next {c : Char} {s after : Scan} {new : List Piece}
    (consumed : Consumes c s after new) : after.next = s.next.after c := by
  cases consumed with
  | endLine _ feed =>
    rw [feed]
  | pass | widen | begin | enter | extend => rfl

/-- What a character settles stands between the edges in front of it and behind it. -/
theorem Consumes.lieWithin {c : Char} {s after : Scan} {new : List Piece}
    (consumed : Consumes c s after new) (edge : s.edge ≤ s.next) :
    LieWithin s.edge after.edge new ∧ s.edge ≤ after.edge ∧ after.edge ≤ after.next := by
  have forward := Position.le_after s.next c
  have further := Position.le_trans edge forward
  cases consumed with
  | pass outside passes =>
    rw [edge_quiet (s := { s with place := _, next := s.next.after c }) passes.quiet]
    exact ⟨.nil _ _, further, Position.le_refl _⟩
  | widen place blank =>
    rw [edge_margin place] at further ⊢
    exact ⟨.nil _ _, Position.le_refl _, further⟩
  | endLine outside feed unbracketed =>
    subst feed
    have line := s.lieWithin_lineEnd
    refine ⟨?_, further, Position.le_refl _⟩
    exact (LieWithin.nil s.edge s.next).append line edge forward
  | begin place opens => exact ⟨.nil _ _, edge, forward⟩
  | @enter start width place opens =>
    rw [edge_margin place] at edge ⊢
    have margin : (⟨start, s.next⟩ : Span).start ≤ (⟨start, s.next⟩ : Span).stop := edge
    have entry := LieWithin.of_layout margin (s.layout_enterLine _ width) (s.span_enterLine _ width)
    exact ⟨entry, edge, forward⟩
  | @extend l longer place extended =>
    obtain ⟨start, -⟩ := Lexeme.start_of_extend? extended
    have same : s.edge = longer.start := by rw [edge_insideWord place, start]
    rw [same] at further ⊢
    exact ⟨.nil _ _, Position.le_refl _, further⟩

namespace Orders

variable {low : Position} {s after : Scan} {ps : List Piece}

/-- The word that is being read joins the pieces in front of it when it ends. -/
theorem settleWord {l : Lexeme} (place : s.place = .insideWord l) (orders : s.Orders low ps) :
    s.settleWord.1.Orders low (ps ++ s.settleWord.2) := by
  have before := orders.reading l place
  have settled := orders.settled
  have low_le := orders.low_le
  have next := s.next_settleWord
  rw [edge_insideWord place] at settled low_le
  rw [settleWord_of_insideWord place] at next ⊢
  have edge : Scan.edge { (l.settle s.next).foldl note s with place := .betweenWords } = s.next :=
    next
  have le := Position.le_of_lt before.start
  refine ⟨?_, ?_, Position.le_refl _, (outside_of_betweenWords rfl).elim⟩
  · rw [edge]
    exact settled.append (Lexeme.settle_lieWithin before) low_le le
  · rw [edge]
    exact Position.le_trans low_le le

/-- What a character settles joins the pieces in front of it. -/
theorem consume {c : Char} {new : List Piece} (consumed : Consumes c s after new)
    (orders : s.Orders low ps) : after.Orders low (ps ++ new) := by
  obtain ⟨lies, further, edge⟩ := consumed.lieWithin orders.edge_le
  have low_le := orders.low_le
  refine ⟨orders.settled.append lies low_le further, Position.le_trans low_le further, edge, ?_⟩
  intro l inside
  rw [consumed.next]
  rcases consumed.reading inside with ⟨-, rfl⟩ | ⟨shorter, place, extended⟩
  · exact Lexeme.startsBefore_ofChar _ _
  · exact Lexeme.startsBefore_of_extend? (orders.reading shorter place) extended

theorem read (orders : s.Orders low ps) (cs : List Char) :
    (s.read cs).1.Orders low (ps ++ (s.read cs).2) :=
  read_rule (step_rule (fun _ _ _ => settleWord) fun _ _ _ _ _ => consume) orders cs

/-- A word that is being read may as well end here. -/
theorem settle (orders : s.Orders low ps) : s.settleWord.1.Orders low (ps ++ s.settleWord.2) :=
  settleWord_rule (fun _ _ _ => settleWord) s ps orders

/-- At the end of a text everything that is still missing stands at one place. -/
theorem finish (orders : s.Orders low ps) : LieWithin low s.next (ps ++ s.finish) := by
  have word := orders.settle
  have rest : LieWithin s.next s.next s.settleWord.1.ending := by
    rw [← s.next_settleWord]
    exact .of_layout (Position.le_refl _) s.settleWord.1.layout_ending s.settleWord.1.span_ending
  have edge := word.edge_le
  rw [s.next_settleWord] at edge
  have front := word.settled.append (.nil _ s.next) word.low_le edge
  rw [List.append_nil] at front
  rw [finish_eq, ← List.append_assoc]
  exact front.append rest (Position.le_trans word.low_le edge) (Position.le_refl _)

end Orders

theorem orders_initial : initial.Orders .origin [] where
  settled := .nil _ _
  low_le := Position.le_refl _
  edge_le := Position.le_refl _
  reading := (outside_of_margin rfl).elim

end Scan

/-- The tokens of a text stand in the order of the text. -/
theorem inTextOrder_lex (source : String) : InTextOrder (lex source).tokens := by
  have whole := (Scan.orders_initial.read source.toList).finish
  rw [List.nil_append, ← Scan.pieces_eq_read] at whole
  exact whole.inOrder

/-- The tokens that are words start one behind another. -/
def WordsInOrder (ts : List Token) : Prop :=
  (wordsOf ts).Pairwise (·.span.start < ·.span.start)

theorem WordsInOrder.of_sublist {ts us : List Token} (ordered : WordsInOrder us)
    (some : ts.Sublist us) : WordsInOrder ts := List.Pairwise.sublist (some.filter _) ordered

theorem InTextOrder.words {ts : List Token} (ordered : InTextOrder ts) : WordsInOrder ts := by
  refine (ordered.ordered.sublist List.filter_sublist).imp_of_mem ?_
  intro t u left right before
  have word (v : Token) (there : v ∈ wordsOf ts) : v.kind.isLayout = false := by
    simpa using (List.mem_filter.1 there).2
  have extent := ordered.extent t (List.mem_of_mem_filter left)
  exact Position.lt_of_lt_of_le (extent.word (word t left)) (before.apart (word u right))

/-- The words of a text start one behind another. -/
theorem wordsInOrder_lex (source : String) : WordsInOrder (lex source).tokens :=
  (inTextOrder_lex source).words

end TekLang
