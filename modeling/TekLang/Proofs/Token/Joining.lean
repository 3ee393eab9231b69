import Mathlib.Data.List.TakeWhile
import TekLang.Proofs.Node.Unplaced
import TekLang.Proofs.Token.LaidOut

/-!
# Texts one behind the other

What a text is read into depends on where it begins only as far as places go: `Scan.unplaced` is
what matters of a scan, and reading commutes with it. Behind a text that ends with a line feed,
where no bracket is open, the next text is read as it would be alone, once the blocks that are still
open have been closed. So the tokens of the two are put together from the tokens of each.
-/

namespace TekLang

/-! ## Reading at another place -/

/-- A piece wherever it stands. -/
def Piece.unplaced : Piece → Piece
  | token t => token t.unplaced
  | fault f _ => fault f default

/-- A shape wherever it stands: a dot that may be a point stands somewhere. -/
def Shape.unplaced : Shape → Shape
  | numberDot _ => numberDot default
  | shape => shape

namespace Lexeme

/-- A word that is being read wherever it stands. -/
def unplaced (l : Lexeme) : Lexeme := ⟨default, l.spelling, l.shape.unplaced⟩

theorem extend?_unplaced (l : Lexeme) (place other : Position) (c : Char) :
    (l.extend? place c).map unplaced = (l.unplaced.extend? other c).map unplaced := by
  obtain ⟨start, spelling, shape⟩ := l
  cases shape with
  | whole kind => rfl
  | word | number | numberDot | sign =>
    simp only [extend?, unplaced, Shape.unplaced]
    split_ifs <;> rfl
  | quoted quote escaped =>
    simp only [extend?, unplaced, Shape.unplaced]
    split_ifs <;> rfl
  | foreign => rfl

theorem settle_unplaced (l : Lexeme) (stop other : Position) :
    (l.settle stop).map Piece.unplaced = (l.unplaced.settle other).map Piece.unplaced := by
  obtain ⟨start, spelling, shape⟩ := l
  cases shape with
  | sign alone withEqual => cases alone <;> rfl
  | whole | word | number | numberDot | quoted | foreign => rfl

end Lexeme

/-- A place in a line wherever the line stands. -/
def Place.unplaced : Place → Place
  | margin _ width => margin default width
  | insideWord l => insideWord l.unplaced
  | place => place

namespace Scan

/-- A scan wherever it stands. -/
def unplaced (s : Scan) : Scan := { s with next := default, place := s.place.unplaced }

/-- A scan and the pieces that it settled wherever they stand. -/
def settledAnywhere (r : Scan × List Piece) : Scan × List Piece :=
  (r.1.unplaced, r.2.map Piece.unplaced)

theorem note_unplaced (s : Scan) (p : Piece) :
    (s.note p).unplaced = s.unplaced.note p.unplaced := by
  cases p <;> rfl

theorem foldl_note_unplaced (ps : List Piece) (s : Scan) :
    (ps.foldl note s).unplaced = (ps.map Piece.unplaced).foldl note s.unplaced := by
  induction ps generalizing s with
  | nil => rfl
  | cons p ps ih => rw [List.foldl_cons, ih, note_unplaced, List.map_cons, List.foldl_cons]

@[simp] theorem unplaced_unplaced (s : Scan) : s.unplaced.unplaced = s.unplaced := by
  obtain ⟨next, place, blocks, nesting, hasWords⟩ := s
  cases place with
  | insideWord l =>
    obtain ⟨start, spelling, shape⟩ := l
    cases shape <;> rfl
  | margin | betweenWords | insideComment => rfl

theorem unplaced_reblock (s : Scan) (blocks : List Nat) :
    { s.unplaced with blocks }.unplaced = { s with blocks }.unplaced :=
  unplaced_unplaced { s with blocks }

theorem unplaced_goOn {s t : Scan} (same : s.unplaced = t.unplaced) {place other : Place}
    (goesOn : place.unplaced = other.unplaced) :
    { s with place }.unplaced = { t with place := other }.unplaced := by
  have kept : ∀ (s : Scan) place,
      { s with place }.unplaced = { s.unplaced with place := place.unplaced } := fun _ _ => rfl
  rw [kept s, kept t, same, goesOn]

theorem unplaced_move {s t : Scan} (same : s.unplaced = t.unplaced) (here there : Position) :
    { s with next := here }.unplaced = { t with next := there }.unplaced := same

theorem settleWord_unplaced (s : Scan) :
    settledAnywhere s.settleWord = settledAnywhere s.unplaced.settleWord := by
  by_cases outside : s.Outside
  · have outside' : s.unplaced.Outside := by
      intro l inside
      unfold Scan.Outside at outside
      cases place : s.place <;> simp_all [unplaced, Place.unplaced]
    rw [settleWord_of_outside outside, settleWord_of_outside outside']
    simp [settledAnywhere]
  · obtain ⟨l, inside⟩ := Classical.not_forall.1 outside
    have inside : s.place = .insideWord l := not_not.1 inside
    have inside' : s.unplaced.place = .insideWord l.unplaced := by
      simp [unplaced, inside, Place.unplaced]
    have settled := l.settle_unplaced s.next s.unplaced.next
    have noted : ((l.settle s.next).foldl note s).unplaced =
        ((l.unplaced.settle s.unplaced.next).foldl note s.unplaced).unplaced := by
      rw [foldl_note_unplaced, foldl_note_unplaced, settled, unplaced_unplaced]
    rw [settleWord_of_insideWord inside, settleWord_of_insideWord inside']
    exact Prod.ext (unplaced_goOn noted rfl) settled

theorem breakLine_unplaced (s : Scan) :
    settledAnywhere s.breakLine = settledAnywhere s.unplaced.breakLine := by
  have nesting : s.unplaced.nesting = s.nesting := rfl
  unfold breakLine
  rw [nesting]
  by_cases bracketed : 0 < s.nesting
  · rw [if_pos bracketed, if_pos bracketed]
    rfl
  · rw [if_neg bracketed, if_neg bracketed]
    refine Prod.ext rfl ?_
    have words : s.unplaced.hasWords = s.hasWords := rfl
    simp only [settledAnywhere, words]
    split_ifs <;> rfl

theorem enterLine_unplaced (s : Scan) (span other : Span) (width : Nat) :
    settledAnywhere (s.enterLine span width) =
      settledAnywhere (s.unplaced.enterLine other width) := by
  have blockWidth : s.unplaced.blockWidth = s.blockWidth := rfl
  have blocks : s.unplaced.blocks = s.blocks := rfl
  unfold enterLine
  rw [blockWidth, blocks]
  by_cases deeper : s.blockWidth < width
  · rw [if_pos deeper, if_pos deeper]
    exact Prod.ext (s.unplaced_reblock _).symm rfl
  · rw [if_neg deeper, if_neg deeper]
    refine Prod.ext (s.unplaced_reblock _).symm ?_
    simp only [settledAnywhere, List.map_append, List.map_map]
    split_ifs <;> rfl

theorem stepOutside_unplaced (s : Scan) (c : Char) :
    settledAnywhere (s.stepOutside c) = settledAnywhere (s.unplaced.stepOutside c) := by
  unfold stepOutside
  split_ifs
  · rfl
  · exact s.breakLine_unplaced
  · rfl
  · rfl

theorem stepMargin_unplaced (s : Scan) (start other : Position) (width : Nat) (c : Char) :
    settledAnywhere (s.stepMargin start width c) =
      settledAnywhere (s.unplaced.stepMargin other width c) := by
  unfold stepMargin
  split_ifs
  · rfl
  · rfl
  · exact s.breakLine_unplaced
  · rfl
  · have entered := s.enterLine_unplaced ⟨start, s.next⟩ ⟨other, s.unplaced.next⟩ width
    have pieces : (s.enterLine ⟨start, s.next⟩ width).2.map Piece.unplaced =
        (s.unplaced.enterLine ⟨other, s.unplaced.next⟩ width).2.map Piece.unplaced :=
      congrArg Prod.snd entered
    exact Prod.ext (unplaced_goOn (congrArg Prod.fst entered) rfl) pieces

theorem take_unplaced (s : Scan) (c : Char) :
    settledAnywhere (s.take c) = settledAnywhere (s.unplaced.take c) := by
  unfold take
  cases place : s.place with
  | margin start width =>
    have place' : s.unplaced.place = .margin default width := by
      simp [unplaced, place, Place.unplaced]
    rw [place']
    exact s.stepMargin_unplaced start default width c
  | betweenWords =>
    have place' : s.unplaced.place = .betweenWords := by simp [unplaced, place, Place.unplaced]
    rw [place']
    exact s.stepOutside_unplaced c
  | insideComment =>
    have place' : s.unplaced.place = .insideComment := by simp [unplaced, place, Place.unplaced]
    rw [place']
    split_ifs
    · exact s.breakLine_unplaced
    · exact Prod.ext s.unplaced_unplaced.symm rfl
  | insideWord l =>
    have place' : s.unplaced.place = .insideWord l.unplaced := by
      simp [unplaced, place, Place.unplaced]
    have extended := l.extend?_unplaced s.next s.unplaced.next c
    rw [place']
    cases ends : l.extend? s.next c with
    | some longer =>
      obtain ⟨longer', goesOn, same⟩ :=
        Option.map_eq_some_iff.1 (extended.symm.trans (by rw [ends]; rfl))
      simp only [ends, goesOn]
      have word := congrArg Place.insideWord same.symm
      exact Prod.ext (unplaced_goOn s.unplaced_unplaced.symm word) rfl
    | none =>
      have ends' : l.unplaced.extend? s.unplaced.next c = none :=
        Option.map_eq_none_iff.1 (extended.symm.trans (by rw [ends]; rfl))
      simp only [ends, ends']
      have settled := s.settleWord_unplaced
      have behind : settledAnywhere (s.settleWord.1.stepOutside c) =
          settledAnywhere (s.unplaced.settleWord.1.stepOutside c) := by
        have scan : s.settleWord.1.unplaced = s.unplaced.settleWord.1.unplaced :=
          congrArg Prod.fst settled
        rw [stepOutside_unplaced, scan, ← stepOutside_unplaced]
      have word : s.settleWord.2.map Piece.unplaced =
          s.unplaced.settleWord.2.map Piece.unplaced := congrArg Prod.snd settled
      have pieces : (s.settleWord.1.stepOutside c).2.map Piece.unplaced =
          (s.unplaced.settleWord.1.stepOutside c).2.map Piece.unplaced := congrArg Prod.snd behind
      have after : (s.settleWord.1.stepOutside c).1.unplaced =
          (s.unplaced.settleWord.1.stepOutside c).1.unplaced := congrArg Prod.fst behind
      refine Prod.ext after ?_
      simp only [settledAnywhere, List.map_append, word, pieces]

/-- What a character does depends on the place only as far as places go. -/
theorem step_unplaced (s : Scan) (c : Char) :
    settledAnywhere (s.step c) = settledAnywhere (s.unplaced.step c) := by
  have taken := s.take_unplaced c
  have pieces : (s.take c).2.map Piece.unplaced = (s.unplaced.take c).2.map Piece.unplaced :=
    congrArg Prod.snd taken
  exact Prod.ext (unplaced_move (congrArg Prod.fst taken) _ _) pieces

theorem ending_unplaced (s : Scan) :
    s.ending.map Piece.unplaced = s.unplaced.ending.map Piece.unplaced := by
  have words : s.unplaced.hasWords = s.hasWords := rfl
  have blocks : s.unplaced.blocks = s.blocks := rfl
  unfold ending
  rw [words, blocks]
  simp only [List.map_append, List.map_map]
  split_ifs <;> rfl

/-- What is settled of the characters `cs` and behind them, if the text ends there. -/
def piecesOf (s : Scan) (cs : List Char) : List Piece := (s.read cs).2 ++ (s.read cs).1.finish

theorem piecesOf_cons (s : Scan) (c : Char) (cs : List Char) :
    s.piecesOf (c :: cs) = (s.step c).2 ++ (s.step c).1.piecesOf cs := by
  rw [piecesOf, read, List.append_assoc]
  rfl

theorem piecesOf_append (s : Scan) (cs ds : List Char) :
    s.piecesOf (cs ++ ds) = (s.read cs).2 ++ (s.read cs).1.piecesOf ds := by
  rw [piecesOf, read_append, List.append_assoc]
  rfl

theorem finish_unplaced (s : Scan) :
    s.finish.map Piece.unplaced = s.unplaced.finish.map Piece.unplaced := by
  have settled := s.settleWord_unplaced
  have scan : s.settleWord.1.unplaced = s.unplaced.settleWord.1.unplaced :=
    congrArg Prod.fst settled
  have word : s.settleWord.2.map Piece.unplaced = s.unplaced.settleWord.2.map Piece.unplaced :=
    congrArg Prod.snd settled
  rw [finish_eq, finish_eq, List.map_append, List.map_append, word, ending_unplaced, scan,
    ← ending_unplaced]

theorem piecesOf_unplaced (s : Scan) (cs : List Char) :
    (s.piecesOf cs).map Piece.unplaced = (s.unplaced.piecesOf cs).map Piece.unplaced := by
  induction cs generalizing s with
  | nil => exact s.finish_unplaced
  | cons c cs ih =>
    have stepped := s.step_unplaced c
    have scan : (s.step c).1.unplaced = (s.unplaced.step c).1.unplaced := congrArg Prod.fst stepped
    have pieces : (s.step c).2.map Piece.unplaced = (s.unplaced.step c).2.map Piece.unplaced :=
      congrArg Prod.snd stepped
    rw [piecesOf_cons, piecesOf_cons, List.map_append, List.map_append, pieces, ih, scan, ← ih]

/-! ## Between two texts -/

/-- The scan stands in a line without words so far, and not between brackets. -/
structure Idle (s : Scan) : Prop where
  place : (∃ start width, s.place = .margin start width) ∨ s.place = .insideComment
  hasWords : s.hasWords = false
  nesting : s.nesting = 0

/-- The scan in other blocks. -/
def inBlocks (s : Scan) (blocks : List Nat) : Scan := { s with blocks }

variable {s : Scan}

/-- A character keeps a line free of words, whatever blocks are open, or begins the first word. -/
theorem Idle.step (idle : s.Idle) (c : Char) :
    (∃ after : Scan, after.Idle ∧ after.blocks = s.blocks ∧
      ∀ blocks, (s.inBlocks blocks).step c = (after.inBlocks blocks, [])) ∨
    ∃ start width, s.place = .margin start width ∧ OpensWord c := by
  obtain ⟨place, words, flat⟩ := idle
  by_cases feed : c = '\n'
  · left
    subst feed
    refine ⟨{ s with
      place := .margin (s.next.after '\n') 0, next := s.next.after '\n', hasWords := false },
      ⟨.inl ⟨_, _, rfl⟩, rfl, flat⟩, rfl, ?_⟩
    intro blocks
    rcases place with ⟨start, width, place⟩ | place <;>
      simp [Scan.step, take, stepMargin, breakLine, inBlocks, place, words, flat]
  · rcases place with ⟨start, width, place⟩ | place
    · by_cases blank : c = ' '
      · left
        refine ⟨{ s with place := .margin start (width + 1), next := s.next.after c },
          ⟨.inl ⟨_, _, rfl⟩, words, flat⟩, rfl, ?_⟩
        intro blocks
        simp [Scan.step, take, stepMargin, inBlocks, place, blank]
      · by_cases tab : c = '\t'
        · left
          refine ⟨{ s with place := .margin start (width + tabWidth), next := s.next.after c },
            ⟨.inl ⟨_, _, rfl⟩, words, flat⟩, rfl, ?_⟩
          intro blocks
          simp [Scan.step, take, stepMargin, inBlocks, place, tab]
        · by_cases comment : c = '\r' ∨ c = '#'
          · left
            refine ⟨{ s with place := .insideComment, next := s.next.after c },
              ⟨.inr rfl, words, flat⟩, rfl, ?_⟩
            intro blocks
            simp [Scan.step, take, stepMargin, inBlocks, place, blank, tab, feed, comment]
          · right
            exact ⟨start, width, place, by simp_all [OpensWord]⟩
    · left
      refine ⟨{ s with place := .insideComment, next := s.next.after c }, ⟨.inr rfl, words, flat⟩,
        rfl, ?_⟩
      intro blocks
      simp [Scan.step, take, inBlocks, place, feed]

/-- What closes all of `blocks` in front of a line. -/
def closing (blocks : List Nat) (span : Span) : List Piece :=
  List.replicate blocks.length (.token (.silent .outdent span))

theorem step_of_opens {start : Position} {width : Nat} {c : Char}
    (place : s.place = .margin start width) (opens : OpensWord c) :
    s.step c = ({ (s.enterLine ⟨start, s.next⟩ width).1 with
      place := .insideWord (.ofChar s.next c), next := s.next.after c },
      (s.enterLine ⟨start, s.next⟩ width).2) := by
  unfold OpensWord at opens
  simp [Scan.step, take, place, stepMargin, opens, next_enterLine]

theorem enterLine_outermost {blocks : List Nat} (positive : ∀ w ∈ blocks, 0 < w) (span : Span) :
    (s.inBlocks blocks).enterLine span 0 = (s.inBlocks [], closing blocks span) := by
  have kept : blocks.dropWhile (0 < ·) = [] := List.dropWhile_eq_nil_iff.2 (by simpa using positive)
  have closed : blocks.takeWhile (0 < ·) = blocks :=
    List.takeWhile_eq_self_iff.2 (by simpa using positive)
  simp [enterLine, inBlocks, kept, closed, closing]

/-- Behind open blocks a text is read as it is alone, once they are closed, unless its first line
    stands further in than the outermost column. -/
theorem Idle.piecesOf (idle : s.Idle) {blocks : List Nat} (positive : ∀ w ∈ blocks, 0 < w)
    (cs : List Char) :
    (∃ span ps, (s.inBlocks []).piecesOf cs = .token (.silent .indent span) :: ps) ∨
      ∃ span, (s.inBlocks blocks).piecesOf cs =
        closing blocks span ++ (s.inBlocks []).piecesOf cs := by
  induction cs generalizing s with
  | nil =>
    right
    refine ⟨.point s.next, ?_⟩
    have outside : ∀ blocks, (s.inBlocks blocks).Outside := by
      intro blocks
      rcases idle.place with ⟨start, width, place⟩ | place
      · exact outside_of_margin place
      · exact outside_of_insideComment place
    have words : ∀ blocks, (s.inBlocks blocks).hasWords = false := fun _ => idle.hasWords
    have stop (blocks : List Nat) : (s.inBlocks blocks).piecesOf [] =
        closing blocks (.point s.next) ++ [.token (.silent .eof (.point s.next))] := by
      rw [Scan.piecesOf, read, List.nil_append, finish_eq, settleWord_of_outside (outside blocks),
        ending, words]
      simp [closing, inBlocks]
    rw [stop, stop]
    rfl
  | cons c cs ih =>
    rcases idle.step c with ⟨after, idle', -, stepped⟩ | ⟨start, width, place, opens⟩
    · simp only [piecesOf_cons, stepped, List.nil_append]
      exact ih idle'
    · have place' : ∀ blocks, (s.inBlocks blocks).place = .margin start width := fun _ => place
      simp only [piecesOf_cons, step_of_opens (place' _) opens]
      by_cases flush : width = 0
      · right
        subst flush
        rw [enterLine_outermost positive, enterLine_outermost (List.forall_mem_nil _)]
        exact ⟨_, rfl⟩
      · left
        have deeper : (s.inBlocks []).blockWidth < width := Nat.pos_of_ne_zero flush
        rw [enterLine, if_pos deeper]
        exact ⟨_, _, rfl⟩

/-- Blocks stand further in than the outermost column. -/
theorem blocks_read (cs : List Char) : ∀ w ∈ (initial.read cs).1.blocks, 0 < w := by
  have settle (s : Scan) (l : Lexeme) (ps : List Piece) (place : s.place = .insideWord l)
      (positive : ∀ w ∈ s.blocks, 0 < w) : ∀ w ∈ s.settleWord.1.blocks, 0 < w := by
    rw [settleWord_of_insideWord place]
    simpa only [blocks_foldl_note] using positive
  have consume (c : Char) (s after : Scan) (new ps : List Piece)
      (consumed : Consumes c s after new) (positive : ∀ w ∈ s.blocks, 0 < w) :
      ∀ w ∈ after.blocks, 0 < w := by
    cases consumed with
    | @enter start width =>
      rcases s.enterLine_cases ⟨start, s.next⟩ width with ⟨deeper, entered, -⟩ | ⟨-, entered, -⟩
      · rw [entered]
        exact List.forall_mem_cons.2 ⟨by omega, positive⟩
      · rw [entered]
        exact fun w member => positive w ((List.dropWhile_suffix _).mem member)
    | pass | widen | endLine | begin | extend => exact positive
  have positive : ∀ w ∈ initial.blocks, 0 < w := List.forall_mem_nil _
  exact @read_rule (fun s _ => ∀ w ∈ s.blocks, 0 < w) (step_rule settle consume) _ [] positive cs

theorem outside_feed (s : Scan) : (s.step '\n').1.Outside := by
  rw [step_feed]
  unfold breakLine
  by_cases bracketed : 0 < s.settleWord.1.nesting
  · rw [if_pos bracketed]
    exact outside_of_betweenWords rfl
  · rw [if_neg bracketed]
    exact outside_of_margin rfl

/-- Behind a line feed outside of brackets a line begins. -/
theorem freshLine_feed (flat : (s.step '\n').1.nesting = 0) :
    (∃ start, (s.step '\n').1.place = .margin start 0) ∧ (s.step '\n').1.hasWords = false := by
  rw [step_feed] at flat ⊢
  unfold breakLine at flat ⊢
  by_cases bracketed : 0 < s.settleWord.1.nesting
  · rw [if_pos bracketed] at flat
    exact absurd flat (Nat.ne_of_gt bracketed)
  · rw [if_neg bracketed]
    exact ⟨⟨_, rfl⟩, rfl⟩

theorem tokensOf_ending_of_noWords (words : s.hasWords = false) :
    tokensOf s.ending = List.replicate s.blocks.length (.silent .outdent (.point s.next)) ++
      [.silent .eof (.point s.next)] := by
  rw [ending, words, if_neg Bool.false_ne_true, List.nil_append, tokensOf_append, List.map_const',
    tokensOf, List.filterMap_replicate_of_some (show Piece.token? (.token _) = _ from rfl)]
  rfl

theorem openBrackets_append_ending (ts : List Token) (s : Scan) :
    openBrackets (ts ++ tokensOf s.ending) = openBrackets ts :=
  openBrackets_append_layout s.layout_ending

/-- The scan stands at the beginning of a line outside of brackets. -/
structure AtStart (s : Scan) : Prop where
  place : ∃ start, s.place = .margin start 0
  hasWords : s.hasWords = false
  nesting : s.nesting = 0

theorem AtStart.idle (atStart : s.AtStart) : s.Idle := by
  obtain ⟨⟨start, place⟩, words, flat⟩ := atStart
  exact ⟨.inl ⟨start, 0, place⟩, words, flat⟩

/-- Where a line begins a text is read as it is from its beginning, but for the open blocks. -/
theorem AtStart.unplaced (atStart : s.AtStart) : (s.inBlocks []).unplaced = initial.unplaced := by
  obtain ⟨⟨start, place⟩, words, flat⟩ := atStart
  simp [Scan.unplaced, inBlocks, place, words, flat, initial, Place.unplaced]

/-- Where no word is being read the end of a text settles nothing but layout. -/
theorem piecesOf_nil (outside : s.Outside) : s.piecesOf [] = s.ending := by
  rw [piecesOf, read, List.nil_append, finish_eq, settleWord_of_outside outside, List.nil_append]

theorem pieces_eq_piecesOf (source : String) : pieces source = initial.piecesOf source.toList :=
  pieces_eq_read source

/-- As many brackets are open as the tokens in front say. -/
theorem nesting_read {cs : List Char} (outside : (initial.read cs).1.Outside) :
    (initial.read cs).1.nesting = openBrackets (tokensOf (initial.piecesOf cs)) := by
  obtain ⟨-, -, -, -, counts⟩ := inLines_read cs
  have whole := initial.piecesOf_append cs []
  rw [List.append_nil, piecesOf_nil outside] at whole
  rw [whole, tokensOf_append, openBrackets_append_ending, counts.nesting]

/-- Behind a line feed a line begins, if no bracket is open there. -/
theorem atStart_read {cs : List Char} (feed : cs.getLast? = some '\n')
    (closed : openBrackets (tokensOf (initial.piecesOf cs)) = 0) : (initial.read cs).1.AtStart := by
  obtain ⟨front, rfl⟩ := List.getLast?_eq_some_iff.1 feed
  have reached : (initial.read (front ++ ['\n'])).1 = ((initial.read front).1.step '\n').1 := by
    rw [read_append]
    rfl
  have outside := (initial.read front).1.outside_feed
  rw [← reached] at outside
  rw [← nesting_read outside, reached] at closed
  rw [reached]
  obtain ⟨place, words⟩ := freshLine_feed closed
  exact ⟨place, words, closed⟩

end Scan

/-- What is read of a text that ends with a line feed and leaves no bracket open, and how reading
    goes on behind it. -/
theorem exists_seam {P : String} (feed : P.toList.getLast? = some '\n')
    (closed : openBrackets (lex P).tokens = 0) : ∃ (s : Scan) (ps : List Piece), s.AtStart ∧
      (∀ w ∈ s.blocks, 0 < w) ∧ pieces P = ps ++ s.ending ∧
        ∀ Q : String, pieces (P ++ Q) = ps ++ s.piecesOf Q.toList := by
  rw [tokens_lex, Scan.pieces_eq_piecesOf] at closed
  have atStart := Scan.atStart_read feed closed
  refine ⟨_, (Scan.initial.read P.toList).2, atStart, Scan.blocks_read _, ?_, ?_⟩
  · obtain ⟨start, place⟩ := atStart.place
    have whole := Scan.initial.piecesOf_append P.toList []
    rwa [List.append_nil, Scan.piecesOf_nil (Scan.outside_of_margin place),
      ← Scan.pieces_eq_piecesOf] at whole
  · intro Q
    rw [Scan.pieces_eq_piecesOf, String.toList_append]
    exact Scan.piecesOf_append _ _ _

theorem tokensOf_unplaced (ps : List Piece) :
    tokensOf (ps.map Piece.unplaced) = (tokensOf ps).map Token.unplaced := by
  induction ps with
  | nil => rfl
  | cons p ps ih =>
    cases p with
    | token t => exact congrArg (t.unplaced :: ·) ih
    | fault => exact ih

theorem faultsOf_unplaced (ps : List Piece) :
    faultsOf (ps.map Piece.unplaced) = [] ↔ faultsOf ps = [] := by
  induction ps with
  | nil => rfl
  | cons p ps ih =>
    cases p with
    | token t => exact ih
    | fault => simp [faultsOf, Piece.unplaced, Piece.diagnostic?]

/-- Behind a text that was read without a report, ends with a line feed and leaves no bracket open,
    the words of another text that begins at the outermost column are read as they are alone. -/
theorem lex_append {P Q : String} (feed : P.toList.getLast? = some '\n')
    (closed : openBrackets (lex P).tokens = 0) (faultless : (lex P).diagnostics = [])
    (faultless' : (lex Q).diagnostics = [])
    (flush : ∀ t ∈ (lex Q).tokens.head?, t.kind ≠ .indent) :
    (lex (P ++ Q)).diagnostics = [] ∧ ∃ front stop, (lex P).tokens = front ++ [stop] ∧
      stop.kind = .eof ∧ (lex (P ++ Q)).tokens.map Token.unplaced =
        (front ++ (lex Q).tokens).map Token.unplaced := by
  obtain ⟨s, ps, atStart, positive, whole, goesOn⟩ := exists_seam feed closed
  have alone : (pieces Q).map Piece.unplaced =
      ((s.inBlocks []).piecesOf Q.toList).map Piece.unplaced := by
    rw [Scan.pieces_eq_read, Scan.piecesOf_unplaced, atStart.unplaced, ← Scan.piecesOf_unplaced]
    rfl
  have tokens : (lex Q).tokens.map Token.unplaced =
      (tokensOf ((s.inBlocks []).piecesOf Q.toList)).map Token.unplaced := by
    rw [tokens_lex, ← tokensOf_unplaced, alone, tokensOf_unplaced]
  have faults : faultsOf ((s.inBlocks []).piecesOf Q.toList) = [] := by
    rw [← faultsOf_unplaced, ← alone, faultsOf_unplaced]
    exact faultless'
  rcases atStart.idle.piecesOf positive Q.toList with ⟨span, qs, indented⟩ | ⟨span, behind⟩
  · rw [indented] at tokens
    obtain ⟨t, ts, split, face, -⟩ := List.map_eq_cons_iff.1 tokens
    refine absurd (Token.kind_eq_of_unplaced face) (flush t ?_)
    rw [split]
    rfl
  · have pieces_PQ : pieces (P ++ Q) = ps ++ (Scan.closing s.blocks span ++
        (s.inBlocks []).piecesOf Q.toList) := (goesOn Q).trans (congrArg (ps ++ ·) behind)
    rw [diagnostics_lex, whole, faultsOf_append] at faultless
    refine ⟨?_, tokensOf ps ++ List.replicate s.blocks.length (.silent .outdent (.point s.next)),
      .silent .eof (.point s.next), ?_, rfl, ?_⟩
    · rw [diagnostics_lex, pieces_PQ, faultsOf_append, faultsOf_append, faults,
        (List.append_eq_nil_iff.1 faultless).1, Scan.closing, faultsOf,
        List.filterMap_replicate_of_none rfl]
      rfl
    · rw [tokens_lex, whole, tokensOf_append, Scan.tokensOf_ending_of_noWords atStart.hasWords,
        List.append_assoc]
    · rw [List.map_append, tokens, tokens_lex, pieces_PQ, tokensOf_append, tokensOf_append,
        Scan.closing, tokensOf, tokensOf,
        List.filterMap_replicate_of_some (show Piece.token? (.token _) = _ from rfl)]
      simp [Token.unplaced, Token.silent, tokensOf]

end TekLang
