import TekLang.Proofs.Token.Coverage

/-!
# Lines that stand equally far in

Blocks are opened and closed by the lines that hold words and by nothing else, each in front of its
first word. Between a line and the next one of the same width nothing opens or closes, because the
innermost open block has that width, with one exception: a line of a width that no open block has is
reported and taken for one that stands less far in, so the next line opens a block
(`blocksBetween_neighbours`).
-/

namespace TekLang

/-- How far blanks indent what stands behind them. -/
def indentation (margin : List Char) : Nat :=
  margin.foldr (fun c width => (if c = '\t' then Scan.tabWidth else 1) + width) 0

theorem indentation_cons (c : Char) (margin : List Char) :
    indentation (c :: margin) = (if c = '\t' then Scan.tabWidth else 1) + indentation margin := rfl

/-- Where a line that holds words begins: the text in front of it, its margin and the first
    character behind the margin. -/
structure LineStart where
  front : List Char
  margin : List Char
  first : Char
  starts : StartsLine front
  blank : ∀ m ∈ margin, m = ' ' ∨ m = '\t'
  opens : OpensWord first

namespace LineStart

/-- How far in the line stands. -/
def width (a : LineStart) : Nat := indentation a.margin

/-- The text up to the first word of the line and with the first character of the word. -/
def upTo (a : LineStart) : List Char := a.front ++ a.margin ++ [a.first]

/-- Where the margin stands. -/
def span (a : LineStart) : Span :=
  ⟨Position.origin.behind a.front, Position.origin.behind (a.front ++ a.margin)⟩

end LineStart

/-- Two lines of a text hold words and no line between them does. -/
structure Neighbours (source : String) (a b : LineStart) : Prop where
  within : b.upTo <+: source.toList
  follows : a.upTo <+: b.front
  nearest : ∀ m : LineStart, m.upTo <+: b.front → m.upTo <+: a.upTo

/-- The tokens that open and close blocks behind one place and up to another. -/
def blocksBetween (ts : List Token) (low high : Position) : List Token :=
  ts.filter fun t =>
    (t.kind = .indent ∨ t.kind = .outdent) ∧ low < t.span.start ∧ t.span.start ≤ high

theorem blocksBetween_append (ts us : List Token) (low high : Position) :
    blocksBetween (ts ++ us) low high = blocksBetween ts low high ++ blocksBetween us low high :=
  List.filter_append ..

/-! ## What tells of blocks -/

/-- The piece opens or closes a block, or reports that no open block has the width of a line. -/
def Piece.TellsBlocks : Piece → Prop
  | token t => t.kind = .indent ∨ t.kind = .outdent
  | fault f _ => f = .inconsistentIndentation

theorem Piece.not_tellsBlocks_of_word {t : Token} (word : t.kind.isLayout = false) :
    ¬ (token t).TellsBlocks := by
  rintro (kind | kind) <;> rw [kind] at word <;> cases word

theorem Lexeme.settle_tellsNoBlocks {l : Lexeme} (spelt : l.IsSpelt) (stop : Position) :
    ∀ p ∈ l.settle stop, ¬ p.TellsBlocks := by
  unfold IsSpelt at spelt
  unfold settle
  split
  case h_1 kind shape =>
    rw [shape] at spelt
    exact List.forall_mem_singleton.2 (Piece.not_tellsBlocks_of_word spelt)
  case h_2 =>
    exact List.forall_mem_singleton.2 (Piece.not_tellsBlocks_of_word (TokenKind.isLayout_ofWord _))
  case h_3 => exact List.forall_mem_singleton.2 (Piece.not_tellsBlocks_of_word rfl)
  case h_4 =>
    refine List.forall_mem_cons.2 ⟨?_, List.forall_mem_singleton.2 ?_⟩ <;>
      exact Piece.not_tellsBlocks_of_word rfl
  case h_5 kind _ shape =>
    rw [shape] at spelt
    exact List.forall_mem_singleton.2 (Piece.not_tellsBlocks_of_word (spelt.1 kind rfl))
  case h_6 | h_7 | h_8 => exact List.forall_mem_singleton.2 nofun

namespace Scan

theorem settleWord_quiet {s : Scan} (reading : ∀ l, s.place = .insideWord l → l.IsSpelt) :
    s.settleWord.1.blocks = s.blocks ∧ ∀ p ∈ s.settleWord.2, ¬ p.TellsBlocks := by
  by_cases outside : s.Outside
  · rw [settleWord_of_outside outside]
    exact ⟨rfl, List.forall_mem_nil _⟩
  · obtain ⟨l, place⟩ := Classical.not_forall.1 outside
    have place : s.place = .insideWord l := not_not.1 place
    rw [settleWord_of_insideWord place]
    exact ⟨blocks_foldl_note _ s, Lexeme.settle_tellsNoBlocks (reading l place) _⟩

/-- Only the first word of a line tells of blocks. -/
theorem Consumes.quiet {c : Char} {s after : Scan} {new : List Piece}
    (consumed : Consumes c s after new)
    (noEntry : ∀ start width, s.place = .margin start width → ¬ OpensWord c) :
    after.blocks = s.blocks ∧ ∀ p ∈ new, ¬ p.TellsBlocks := by
  cases consumed with
  | pass | widen | begin | extend => exact ⟨rfl, List.forall_mem_nil _⟩
  | endLine =>
    refine ⟨rfl, ?_⟩
    unfold lineEnd
    split
    · exact List.forall_mem_singleton.2 nofun
    · exact List.forall_mem_nil _
  | enter place opens => exact absurd opens (noEntry _ _ place)

theorem step_quiet {s : Scan} {c : Char} (reading : ∀ l, s.place = .insideWord l → l.IsSpelt)
    (noEntry : ∀ start width, s.place = .margin start width → ¬ OpensWord c) :
    (s.step c).1.blocks = s.blocks ∧ ∀ p ∈ (s.step c).2, ¬ p.TellsBlocks := by
  rcases s.step_cases c with consumed | ⟨after, new, consumed, stepped⟩
  · exact consumed.quiet noEntry
  · obtain ⟨kept, word⟩ := settleWord_quiet reading
    have settled : ∀ start width, s.settleWord.1.place = .margin start width → ¬ OpensWord c := by
      intro start width place
      refine noEntry start width ?_
      unfold settleWord at place
      split at place
      · cases place
      · exact place
    obtain ⟨kept', quiet⟩ := consumed.quiet settled
    rw [stepped]
    exact ⟨kept'.trans kept, List.forall_mem_append.2 ⟨word, quiet⟩⟩

/-- What tells of blocks from here on starts no earlier. -/
def blockEdge (s : Scan) : Position :=
  match s.place with
  | .margin start _ => start
  | _ => s.next

theorem blockEdge_margin {s : Scan} {start : Position} {width : Nat}
    (place : s.place = .margin start width) : s.blockEdge = start := by
  unfold blockEdge
  rw [place]

theorem blockEdge_insideWord {s : Scan} {l : Lexeme} (place : s.place = .insideWord l) :
    s.blockEdge = s.next := by
  unfold blockEdge
  rw [place]

/-- What tells of blocks among the pieces settled since the place `low` starts there or later, and
    in front of all that is still to come. -/
structure Parts (low : Position) (s : Scan) (ps : List Piece) : Prop where
  low_le : low ≤ s.blockEdge
  edge_le : s.blockEdge ≤ s.next
  settled : ∀ p ∈ ps, p.TellsBlocks → low ≤ p.span.start ∧ p.span.start < s.blockEdge
  reading : ∀ l, s.place = .insideWord l → l.IsSpelt

theorem Consumes.parts {c : Char} {s after : Scan} {new : List Piece}
    (consumed : Consumes c s after new) (edge : s.blockEdge ≤ s.next) :
    s.blockEdge ≤ after.blockEdge ∧ after.blockEdge ≤ after.next ∧ ∀ p ∈ new, p.TellsBlocks →
      s.blockEdge ≤ p.span.start ∧ p.span.start < after.blockEdge := by
  have further := Position.le_trans edge (Position.le_after s.next c)
  cases consumed with
  | pass outside passes =>
    rcases passes.quiet with rfl | rfl <;>
      exact ⟨further, Position.le_refl _, List.forall_mem_nil _⟩
  | widen place =>
    rw [blockEdge_margin place] at further ⊢
    exact ⟨Position.le_refl _, further, List.forall_mem_nil _⟩
  | endLine outside feed unbracketed =>
    subst feed
    obtain ⟨-, quiet⟩ := (Consumes.endLine outside rfl unbracketed).quiet nofun
    exact ⟨further, Position.le_refl _, fun p there tells => absurd tells (quiet p there)⟩
  | begin | extend => exact ⟨further, Position.le_refl _, List.forall_mem_nil _⟩
  | @enter start width place =>
    rw [blockEdge_margin place] at edge further ⊢
    refine ⟨further, Position.le_refl _, fun p there _ => ?_⟩
    rw [s.span_enterLine _ _ p there]
    exact ⟨Position.le_refl _, Position.lt_of_le_of_lt edge (Position.lt_after _ _)⟩

namespace Parts

variable {low : Position} {s after : Scan} {ps : List Piece}

theorem settleWord (parts : s.Parts low ps) : s.settleWord.1.Parts low (ps ++ s.settleWord.2) := by
  obtain ⟨-, quiet⟩ := settleWord_quiet parts.reading
  have edge : s.settleWord.1.blockEdge = s.blockEdge ∧ s.settleWord.1.next = s.next := by
    refine ⟨?_, s.next_settleWord⟩
    by_cases outside : s.Outside
    · rw [settleWord_of_outside outside]
    · obtain ⟨l, place⟩ := Classical.not_forall.1 outside
      have next := s.next_settleWord
      rw [settleWord_of_insideWord (not_not.1 place)] at next ⊢
      rw [blockEdge_insideWord (not_not.1 place)]
      exact next
  refine ⟨?_, ?_, ?_, s.outside_settleWord.elim⟩
  · rw [edge.1]
    exact parts.low_le
  · rw [edge.1, edge.2]
    exact parts.edge_le
  · rw [edge.1]
    intro p there tells
    rcases List.mem_append.1 there with there | there
    · exact parts.settled p there tells
    · exact absurd tells (quiet p there)

theorem consume {c : Char} {new : List Piece} (consumed : Consumes c s after new)
    (parts : s.Parts low ps) : after.Parts low (ps ++ new) := by
  obtain ⟨further, edge, new⟩ := consumed.parts parts.edge_le
  refine ⟨Position.le_trans parts.low_le further, edge, ?_, ?_⟩
  · intro p there tells
    rcases List.mem_append.1 there with there | there
    · obtain ⟨starts, front⟩ := parts.settled p there tells
      exact ⟨starts, Position.lt_of_lt_of_le front further⟩
    · obtain ⟨starts, front⟩ := new p there tells
      exact ⟨Position.le_trans parts.low_le starts, front⟩
  · intro l inside
    rcases consumed.reading inside with ⟨-, rfl⟩ | ⟨shorter, place, extended⟩
    · exact Lexeme.isSpelt_ofChar _ _
    · exact (parts.reading shorter place).extend extended

theorem read (parts : s.Parts low ps) (cs : List Char) :
    (s.read cs).1.Parts low (ps ++ (s.read cs).2) :=
  read_rule (step_rule (fun _ _ _ _ => settleWord) fun _ _ _ _ _ => consume) parts cs

theorem restart (parts : s.Parts low ps) : s.Parts s.blockEdge [] :=
  ⟨Position.le_refl _, parts.edge_le, List.forall_mem_nil _, parts.reading⟩

/-- Nothing that is settled from here on and tells of blocks starts in front of the edge. -/
theorem blockEdge_le_piecesOf (parts : s.Parts low ps) (cs : List Char) :
    ∀ p ∈ s.piecesOf cs, p.TellsBlocks → s.blockEdge ≤ p.span.start := by
  have whole := (parts.restart.read cs).settleWord
  rw [List.nil_append] at whole
  intro p there tells
  rw [piecesOf, finish_eq, ← List.append_assoc] at there
  rcases List.mem_append.1 there with there | there
  · exact (whole.settled p there tells).1
  · rw [span_ending _ p there]
    exact Position.le_trans whole.low_le whole.edge_le

end Parts

/-! ## Entering a line -/

theorem headD_dropWhile_le (width : Nat) (blocks : List Nat) :
    (blocks.dropWhile (width < ·)).headD 0 ≤ width := by
  induction blocks with
  | nil => exact Nat.zero_le _
  | cons w blocks ih =>
    rw [List.dropWhile_cons]
    split
    · exact ih
    · next stops => exact Nat.not_lt.1 fun inner => stops (decide_eq_true inner)

/-- Behind the beginning of a line the innermost block is no wider than the line, and it is as wide
    unless the line was reported. -/
theorem blockWidth_enterLine (s : Scan) (span : Span) (width : Nat) :
    (s.enterLine span width).1.blockWidth ≤ width ∧
      (.fault .inconsistentIndentation span ∈ (s.enterLine span width).2 ↔
        (s.enterLine span width).1.blockWidth < width) := by
  unfold enterLine
  by_cases deeper : s.blockWidth < width
  · rw [if_pos deeper]
    have silent : .fault .inconsistentIndentation span ∉ [Piece.token (.silent .indent span)] := by
      simp
    exact ⟨Nat.le_refl _, iff_of_false silent (Nat.lt_irrefl _)⟩
  · rw [if_neg deeper]
    have outer := headD_dropWhile_le width s.blocks
    refine ⟨outer, List.mem_append.trans ?_⟩
    have closes : .fault .inconsistentIndentation span ∉
        (s.blocks.takeWhile (width < ·)).map fun _ => Piece.token (.silent .outdent span) := by simp
    by_cases same : (s.blocks.dropWhile (width < ·)).headD 0 = width
    · rw [if_pos same]
      refine iff_of_false (not_or.2 ⟨closes, List.not_mem_nil⟩) ?_
      exact Nat.not_lt.2 (Nat.le_of_eq same.symm)
    · rw [if_neg same]
      exact iff_of_true (.inr List.mem_cons_self) (Nat.lt_of_le_of_ne outer same)

/-- Where no open block is wider, a line opens a block or does nothing. -/
theorem enterLine_of_le {s : Scan} {width : Nat} (outer : s.blockWidth ≤ width) (span : Span) :
    (s.enterLine span width).2 =
      if s.blockWidth < width then [.token (.silent .indent span)] else [] := by
  unfold enterLine
  by_cases deeper : s.blockWidth < width
  · rw [if_pos deeper, if_pos deeper]
  · rw [if_neg deeper, if_neg deeper]
    have level : s.blockWidth = width := Nat.le_antisymm outer (Nat.not_lt.1 deeper)
    have kept :
        s.blocks.dropWhile (width < ·) = s.blocks ∧ s.blocks.takeWhile (width < ·) = [] := by
      unfold blockWidth at outer
      cases blocks : s.blocks with
      | nil => exact ⟨rfl, rfl⟩
      | cons w others =>
        rw [blocks] at outer
        have stops : ¬ width < w := Nat.not_lt.2 outer
        simp [stops]
    rw [kept.1, kept.2]
    exact if_pos level

/-- Where a line of the same width is entered again nothing happens, unless the line was reported
    the first time. -/
theorem enterLine_again {s t : Scan} {span : Span} {width : Nat}
    (blocks : t.blocks = (s.enterLine span width).1.blocks) (span' : Span) :
    (t.enterLine span' width).2 =
      if .fault .inconsistentIndentation span ∈ (s.enterLine span width).2 then
        [.token (.silent .indent span')] else [] := by
  obtain ⟨outer, reported⟩ := s.blockWidth_enterLine span width
  have level : t.blockWidth = (s.enterLine span width).1.blockWidth := by
    rw [blockWidth, blockWidth, blocks]
  rw [← level] at outer reported
  rw [enterLine_of_le outer, if_congr reported rfl rfl]

/-- Blanks widen the margin. -/
theorem read_indentation {s : Scan} {start : Position} {width : Nat}
    (place : s.place = .margin start width) {cs : List Char}
    (blank : ∀ c ∈ cs, c = ' ' ∨ c = '\t') :
    s.read cs = ({ s with
      place := .margin start (width + indentation cs), next := s.next.behind cs }, []) := by
  induction cs generalizing s width with
  | nil => simp [read, indentation, Position.behind, ← place]
  | cons c cs ih =>
    obtain ⟨first, others⟩ := List.forall_mem_cons.1 blank
    have widened : s.step c = ({ s with
        place := .margin start (width + if c = '\t' then tabWidth else 1),
        next := s.next.after c }, []) := by
      rcases first with rfl | rfl <;> simp [step, take, place, stepMargin]
    rw [read, widened, ih rfl others, indentation_cons, Nat.add_assoc]
    rfl

/-- A line begins where its margin does. -/
theorem start_of_margin {s : Scan} {c : Char} {start : Position}
    (place : (s.step c).1.place = .margin start 0) : start = (s.step c).1.next := by
  obtain ⟨t, new, consumed, -⟩ := s.exists_consumes c
  generalize (s.step c).1 = after at consumed place
  cases consumed with
  | pass _ passes => rcases passes.quiet with rfl | rfl <;> cases place
  | @widen _ _ more _ blank =>
    obtain ⟨-, none⟩ := Place.margin.inj place
    rcases blank with ⟨-, wide⟩ | ⟨-, wide⟩
    · exact absurd (wide.symm.trans none) (Nat.succ_ne_zero _)
    · rw [none, tabWidth] at wide
      omega
  | endLine => exact (Place.margin.inj place).1.symm
  | begin | enter | extend => exact absurd place Place.insideWord_ne_margin

theorem parts_initial : initial.Parts .origin [] :=
  ⟨Position.le_refl _, Position.le_refl _, List.forall_mem_nil _, (outside_of_margin rfl).elim⟩

end Scan

namespace LineStart

open Scan

/-- The scan in front of the first word of the line. -/
def scan (a : LineStart) : Scan := (initial.read (a.front ++ a.margin)).1

/-- What the first word of the line settles. -/
def entry (a : LineStart) : List Piece := (a.scan.enterLine a.span a.width).2

variable {a b : LineStart}

theorem next_scan (a : LineStart) : a.scan.next = a.span.stop := next_read _ _

/-- The margin of a line changes nothing but the place. -/
theorem scan_eq (a : LineStart) : a.scan = { (initial.read a.front).1 with
    place := .margin a.span.start a.width, next := a.span.stop } ∧
      ((initial.read a.front).1.read a.margin).2 = [] := by
  obtain ⟨start, place⟩ := startsLine_iff.1 a.starts
  have begun : start = a.span.start := by
    have next : (initial.read a.front).1.next = a.span.start := next_read _ _
    rcases List.eq_nil_or_concat' a.front with front | ⟨before, c, front⟩
    · rw [← next]
      rw [front] at place ⊢
      exact (Place.margin.inj place).1.symm
    · rw [← next]
      rw [front, read_concat] at place ⊢
      exact start_of_margin place
  have widened := read_indentation place a.blank
  rw [Nat.zero_add, begun] at widened
  have stop : (initial.read a.front).1.next.behind a.margin = a.span.stop := by
    rw [← next_read, ← next_scan, scan, read_append]
  rw [stop] at widened
  refine ⟨?_, by rw [widened]⟩
  rw [scan, read_append, widened]
  rfl

theorem place_scan (a : LineStart) : a.scan.place = .margin a.span.start a.width := by
  rw [a.scan_eq.1]

theorem blocks_scan (a : LineStart) : a.scan.blocks = (initial.read a.front).1.blocks := by
  rw [a.scan_eq.1]

theorem step_scan (a : LineStart) : a.scan.step a.first =
    ({ (a.scan.enterLine a.span a.width).1 with
      place := .insideWord (.ofChar a.span.stop a.first),
      next := a.span.stop.after a.first }, a.entry) := by
  have stepped := step_of_opens a.place_scan a.opens
  rwa [a.next_scan] at stepped

theorem read_upTo (a : LineStart) : initial.read a.upTo =
    ((a.scan.step a.first).1, (initial.read (a.front ++ a.margin)).2 ++ a.entry) := by
  rw [upTo, read_append _ (a.front ++ a.margin)]
  change ((a.scan.step a.first).1, _ ++ ((a.scan.step a.first).2 ++ [])) = _
  rw [List.append_nil, step_scan]

/-- A line does not begin with what begins no word. -/
theorem prefix_of_blank {m : LineStart} {front rest : List Char} (starts : m.upTo <+: front ++ rest)
    (blank : ∀ c ∈ rest, ¬ OpensWord c) : m.upTo <+: front := by
  induction rest using List.reverseRecOn with
  | nil => rwa [List.append_nil] at starts
  | append_singleton rest c ih =>
    obtain ⟨others, last⟩ := List.forall_mem_append.1 blank
    rw [← List.append_assoc] at starts
    rcases List.prefix_concat_iff.1 starts with whole | earlier
    · obtain ⟨-, same⟩ := List.append_inj' whole rfl
      obtain rfl := List.singleton_inj.1 same
      exact absurd m.opens (last _ List.mem_cons_self)
    · exact ih earlier others

/-- Where no line with words begins, blocks stay as they are. -/
theorem read_quiet {front rest : List Char}
    (none : ∀ m : LineStart, m.upTo <+: front ++ rest → m.upTo <+: front) :
    (initial.read (front ++ rest)).1.blocks = (initial.read front).1.blocks ∧
      ∀ p ∈ ((initial.read front).1.read rest).2, ¬ p.TellsBlocks := by
  induction rest using List.reverseRecOn with
  | nil =>
    rw [List.append_nil]
    exact ⟨rfl, List.forall_mem_nil _⟩
  | append_singleton rest c ih =>
    obtain ⟨kept, quiet⟩ := ih fun m starts => none m (starts.trans (by simp))
    have parts := parts_initial.read (front ++ rest)
    have noEntry : ∀ start width, (initial.read (front ++ rest)).1.place = .margin start width →
        ¬ OpensWord c := by
      intro start width place opens
      obtain ⟨line, margin, split, begun, blank⟩ := margin_read place
      let m : LineStart := ⟨line, margin, c, startsLine_iff.2 begun, blank, opens⟩
      have whole : m.upTo = front ++ (rest ++ [c]) := by
        rw [upTo, ← split, List.append_assoc]
      have earlier := (none m (whole ▸ List.prefix_refl _)).length_le
      rw [whole, List.length_append, List.length_append, List.length_singleton] at earlier
      omega
    obtain ⟨kept', quiet'⟩ := step_quiet parts.reading noEntry
    have split : (initial.read front).1.read (rest ++ [c]) =
        (((initial.read (front ++ rest)).1.step c).1, ((initial.read front).1.read rest).2 ++
          ((initial.read (front ++ rest)).1.step c).2) := by
      rw [read_append, read_append]
      simp [Scan.read]
    rw [← List.append_assoc, read_concat, split]
    exact ⟨kept'.trans kept, List.forall_mem_append.2 ⟨quiet, quiet'⟩⟩

theorem span_entry (a : LineStart) : ∀ p ∈ a.entry, p.span = a.span := a.scan.span_enterLine _ _

theorem forward (a : LineStart) : a.span.start ≤ a.span.stop := by
  have edge : a.scan.blockEdge ≤ a.scan.next := (parts_initial.read (a.front ++ a.margin)).edge_le
  rwa [blockEdge_margin a.place_scan, a.next_scan] at edge

/-- What tells of blocks behind the beginning of a line starts behind its margin. -/
theorem blockEdge_upTo (a : LineStart) :
    (initial.read a.upTo).1.blockEdge = a.span.stop.after a.first := by
  rw [read_upTo, step_scan]
  rfl

end LineStart

section Neighbours

open Scan

variable {source : String} {a b : LineStart}

/-- The pieces of a text around two neighbouring lines: what is in front of the first, what the
    first word of each settles, and what is between them and behind. -/
theorem Neighbours.pieces (neighbours : Neighbours source a b) :
    ∃ front between behind,
      pieces source = front ++ (a.entry ++ (between ++ (b.entry ++ behind))) ∧
      (∀ p ∈ front, p.TellsBlocks → p.span.start < a.span.start) ∧
      (∀ p ∈ between, ¬ p.TellsBlocks) ∧
      (∀ p ∈ behind, p.TellsBlocks → b.span.stop < p.span.start) ∧
      b.scan.blocks = (a.scan.enterLine a.span a.width).1.blocks ∧ a.span.stop < b.span.start := by
  obtain ⟨⟨rest, whole⟩, ⟨middle, front⟩, nearest⟩ := neighbours
  rw [← front] at nearest
  obtain ⟨kept, quiet⟩ := LineStart.read_quiet nearest
  have reached : ((initial.read a.upTo).1.read middle).1 = (initial.read b.front).1 := by
    rw [← front, read_append]
  refine ⟨(initial.read (a.front ++ a.margin)).2, ((initial.read a.upTo).1.read middle).2,
    (b.scan.step b.first).1.piecesOf rest, ?_, ?_, quiet, ?_, ?_, ?_⟩
  · have split : source.toList = a.upTo ++ (middle ++ (b.margin ++ b.first :: rest)) := by
      rw [← whole, LineStart.upTo, ← front]
      simp
    have margin : (initial.read b.front).1.piecesOf (b.margin ++ b.first :: rest) =
        b.entry ++ (b.scan.step b.first).1.piecesOf rest := by
      have begun : ((initial.read b.front).1.read b.margin).1 = b.scan := by
        rw [LineStart.scan, read_append]
      rw [piecesOf_append, b.scan_eq.2, List.nil_append, begun, piecesOf_cons, b.step_scan]
    rw [pieces_split split, piecesOf_append, reached, margin, a.read_upTo, List.append_assoc]
  · intro p there tells
    have settled := (parts_initial.read (a.front ++ a.margin)).settled p there tells
    rw [← blockEdge_margin a.place_scan]
    exact settled.2
  · intro p there tells
    have parts := parts_initial.read b.upTo
    have edge := b.blockEdge_upTo
    rw [b.read_upTo] at parts edge
    have starts := parts.blockEdge_le_piecesOf rest p there tells
    rw [edge] at starts
    exact Position.lt_of_lt_of_le (Position.lt_after _ _) starts
  · rw [b.blocks_scan, ← front, kept, a.read_upTo, a.step_scan]
  · have parts := (parts_initial.read a.upTo).restart.read (middle ++ b.margin)
    have begun : ((initial.read a.upTo).1.read (middle ++ b.margin)).1 = b.scan := by
      rw [read_append, reached, LineStart.scan, read_append]
    have further := parts.low_le
    rw [begun, blockEdge_margin b.place_scan, a.blockEdge_upTo] at further
    exact Position.lt_of_lt_of_le (Position.lt_after _ _) further

theorem blocksBetween_eq_nil {ps : List Piece} {low high : Position}
    (apart : ∀ p ∈ ps, p.TellsBlocks → p.span.start ≤ low ∨ high < p.span.start) :
    blocksBetween (tokensOf ps) low high = [] := by
  refine List.filter_eq_nil_iff.2 fun t there within => ?_
  obtain ⟨tells, behind, front⟩ := of_decide_eq_true within
  rcases apart _ (mem_tokensOf.1 there) tells with early | late
  · exact Position.lt_irrefl _ (Position.lt_of_lt_of_le behind early)
  · exact Position.lt_irrefl _ (Position.lt_of_lt_of_le late front)

/-- It is reported that no open block has the width of the line. -/
def LineStart.Inconsistent (source : String) (a : LineStart) : Prop :=
  TextFault.inconsistentIndentation.diagnostic a.span ∈ (lex source).diagnostics

theorem inconsistent_iff {source : String} {a : LineStart} :
    a.Inconsistent source ↔ .fault .inconsistentIndentation a.span ∈ pieces source := by
  refine List.mem_filterMap.trans ⟨?_, fun there => ⟨_, there, rfl⟩⟩
  rintro ⟨p, there, told⟩
  cases p with
  | token => cases told
  | fault f span =>
    obtain ⟨-, message, rfl⟩ := Diagnostic.mk.inj (Option.some.inj told)
    cases f with
    | inconsistentIndentation => exact there
    | unexpectedCharacter => exact absurd message (by decide)
    | unterminatedString => exact absurd message (by decide)

namespace Neighbours

/-- Between two neighbouring lines stand the blocks that the second of them opens and closes. -/
theorem blocksBetween_eq (neighbours : Neighbours source a b) :
    blocksBetween (lex source).tokens a.span.stop b.span.stop =
      blocksBetween (tokensOf b.entry) a.span.stop b.span.stop := by
  obtain ⟨front, between, behind, whole, earlier, quiet, later, -⟩ := neighbours.pieces
  have none {ps : List Piece} (outside : ∀ p ∈ ps, p.TellsBlocks →
      p.span.start ≤ a.span.stop ∨ b.span.stop < p.span.start) :
      blocksBetween (tokensOf ps) a.span.stop b.span.stop = [] := blocksBetween_eq_nil outside
  have before := none fun p there tells =>
    .inl (Position.le_trans (Position.le_of_lt (earlier p there tells)) a.forward)
  have entered : blocksBetween (tokensOf a.entry) a.span.stop b.span.stop = [] := by
    refine none fun p there _ => .inl ?_
    rw [a.span_entry p there]
    exact a.forward
  have middle := none fun p there tells => absurd tells (quiet p there)
  have after := none fun p there tells => .inr (later p there tells)
  rw [tokens_lex, whole]
  simp only [tokensOf_append, blocksBetween_append, before, entered, middle, after, List.nil_append,
    List.append_nil]

/-- The first of two neighbouring lines is reported if its first word settles the report. -/
theorem inconsistent_iff_entry (neighbours : Neighbours source a b) :
    a.Inconsistent source ↔ .fault .inconsistentIndentation a.span ∈ a.entry := by
  obtain ⟨front, between, behind, whole, earlier, quiet, later, -, apart⟩ := neighbours.pieces
  have further := Position.lt_of_le_of_lt a.forward apart
  rw [inconsistent_iff, whole]
  simp only [List.mem_append]
  constructor
  · rintro (there | there | there | there | there)
    · exact absurd (earlier _ there rfl) (Position.lt_irrefl _)
    · exact there
    · exact absurd rfl (quiet _ there)
    · have same : a.span = b.span := b.span_entry _ there
      rw [same] at further
      exact absurd further (Position.lt_irrefl _)
    · have front := Position.lt_of_lt_of_le further b.forward
      have behind := Position.lt_of_lt_of_le front (Position.le_of_lt (later _ there rfl))
      exact absurd behind (Position.lt_irrefl _)
  · exact fun there => .inr (.inl there)

/-- Two lines are neighbours if nothing behind the first character of the one and in front of the
    other can begin a word. -/
theorem of_blank {rest : List Char} (within : b.upTo <+: source.toList)
    (front : b.front = a.upTo ++ rest) (blank : ∀ c ∈ rest, ¬ OpensWord c) :
    Neighbours source a b where
  within := within
  follows := ⟨rest, front.symm⟩
  nearest m starts := by
    rw [front] at starts
    exact LineStart.prefix_of_blank starts blank

end Neighbours

/-- Between lines that stand equally far in no block opens or closes, unless the first of them was
    reported: then the second stands further in than what the first has been taken for. -/
theorem blocksBetween_neighbours (neighbours : Neighbours source a b) (equal : a.width = b.width) :
    (a.Inconsistent source →
      blocksBetween (lex source).tokens a.span.stop b.span.stop = [.silent .indent b.span]) ∧
    (¬ a.Inconsistent source → blocksBetween (lex source).tokens a.span.stop b.span.stop = []) := by
  obtain ⟨-, -, -, -, -, -, -, blocks, apart⟩ := neighbours.pieces
  have again : b.entry = if .fault .inconsistentIndentation a.span ∈ a.entry then
      [.token (.silent .indent b.span)] else [] := by
    rw [LineStart.entry, ← equal]
    exact enterLine_again blocks b.span
  rw [neighbours.inconsistent_iff_entry, neighbours.blocksBetween_eq, again]
  constructor
  · intro inconsistent
    rw [if_pos inconsistent]
    have within : a.span.stop < b.span.start ∧ b.span.start ≤ b.span.stop := ⟨apart, b.forward⟩
    exact List.filter_eq_self.2 (List.forall_mem_singleton.2 (decide_eq_true ⟨.inl rfl, within⟩))
  · intro consistent
    rw [if_neg consistent]
    rfl

theorem blocksBetween_neighbours_level : ∃ a b : LineStart,
    Neighbours "a\n  b\n  c\n" a b ∧ a.width = b.width ∧
      blocksBetween (lex "a\n  b\n  c\n").tokens a.span.stop b.span.stop = [] := by
  let a : LineStart :=
    ⟨"a\n".toList, [' ', ' '], 'b', .inr ⟨rfl, by decide +kernel⟩, by simp, by decide⟩
  let b : LineStart :=
    ⟨"a\n  b\n".toList, [' ', ' '], 'c', .inr ⟨rfl, by decide +kernel⟩, by simp, by decide⟩
  have neighbours : Neighbours "a\n  b\n  c\n" a b :=
    .of_blank ⟨['\n'], rfl⟩ (show b.front = a.upTo ++ ['\n'] from rfl)
      (List.forall_mem_singleton.2 (by decide))
  have consistent : ¬ a.Inconsistent "a\n  b\n  c\n" := by
    unfold LineStart.Inconsistent
    decide +kernel
  exact ⟨a, b, neighbours, rfl, (blocksBetween_neighbours neighbours rfl).2 consistent⟩

/-- A line that stands as far in as the reported line in front of it opens a block all the same. -/
theorem not_blocksBetween_nil : ¬ ∀ (source : String) (a b : LineStart), Neighbours source a b →
    a.width = b.width → blocksBetween (lex source).tokens a.span.stop b.span.stop = [] := by
  intro none
  let a : LineStart :=
    ⟨"a\n    b\n".toList, [' ', ' '], 'c', .inr ⟨rfl, by decide +kernel⟩, by simp, by decide⟩
  let b : LineStart :=
    ⟨"a\n    b\n  c\n".toList, [' ', ' '], 'd', .inr ⟨rfl, by decide +kernel⟩, by simp, by decide⟩
  have neighbours : Neighbours "a\n    b\n  c\n  d\n" a b :=
    .of_blank ⟨['\n'], rfl⟩ (show b.front = a.upTo ++ ['\n'] from rfl)
      (List.forall_mem_singleton.2 (by decide))
  have some : blocksBetween (lex "a\n    b\n  c\n  d\n").tokens a.span.stop b.span.stop ≠ [] := by
    decide +kernel
  exact some (none _ a b neighbours rfl)

end Neighbours

end TekLang
