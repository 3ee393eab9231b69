import TekLang.Proofs.Span
import TekLang.Token.Layout

/-!
# What a character does

A character first ends the word that is being read, unless the word goes on with it. What it does
then is one of six things. `Scan.Consumes` lists them, with all that is known of the scan in each
case, and `pieces_rule` turns what each of them keeps into a fact about whole texts.
-/

namespace TekLang

/-- The tokens that spell text. -/
def wordsOf (ts : List Token) : List Token := ts.filter (!·.kind.isLayout)

theorem wordsOf_append (ts us : List Token) : wordsOf (ts ++ us) = wordsOf ts ++ wordsOf us :=
  List.filter_append ..

theorem wordsOf_of_layout {ts : List Token} (layout : ∀ t ∈ ts, t.kind.isLayout = true) :
    wordsOf ts = [] := by
  refine List.filter_eq_nil_iff.2 ?_
  intro t there
  rw [layout t there]
  exact Bool.false_ne_true

/-- The tokens among pieces. -/
def tokensOf (ps : List Piece) : List Token := ps.filterMap Piece.token?

theorem tokensOf_append (ps qs : List Piece) : tokensOf (ps ++ qs) = tokensOf ps ++ tokensOf qs :=
  List.filterMap_append

theorem mem_tokensOf {t : Token} {ps : List Piece} : t ∈ tokensOf ps ↔ .token t ∈ ps := by
  refine List.mem_filterMap.trans ⟨?_, fun there => ⟨_, there, rfl⟩⟩
  rintro ⟨piece, there, settled⟩
  cases piece with
  | token =>
    cases settled
    exact there
  | fault => cases settled

/-- The stretch of a text that a piece is about. -/
def Piece.span : Piece → Span
  | token t => t.span
  | fault _ span => span

namespace Scan

/-- Reads characters one by one. -/
def read (s : Scan) : List Char → Scan × List Piece
  | [] => (s, [])
  | c :: cs => (((s.step c).1.read cs).1, (s.step c).2 ++ ((s.step c).1.read cs).2)

theorem read_append (s : Scan) (cs ds : List Char) :
    s.read (cs ++ ds) =
      (((s.read cs).1.read ds).1, (s.read cs).2 ++ ((s.read cs).1.read ds).2) := by
  induction cs generalizing s with
  | nil => rfl
  | cons c cs ih => simp [read, ih]

theorem pieces_eq_read (source : String) :
    pieces source = (initial.read source.toList).2 ++ (initial.read source.toList).1.finish := by
  have run (cs : List Char) (s : Scan) (ps : Array Piece) :
      (cs.foldl feed (s, ps)).1 = (s.read cs).1 ∧
        (cs.foldl feed (s, ps)).2.toList = ps.toList ++ (s.read cs).2 := by
    induction cs generalizing s ps with
    | nil => simp [read]
    | cons c cs ih =>
      obtain ⟨scan, settled⟩ := ih (s.step c).1 (ps ++ (s.step c).2)
      refine ⟨scan, ?_⟩
      rw [List.foldl_cons]
      change (cs.foldl feed ((s.step c).1, ps ++ (s.step c).2)).2.toList = _
      rw [settled]
      simp [read]
  obtain ⟨scan, settled⟩ := run source.toList initial #[]
  change (source.toList.foldl feed (initial, #[])).2.toList ++
    (source.toList.foldl feed (initial, #[])).1.finish = _
  rw [scan, settled]
  rfl

/-- What every character keeps is kept by a text. -/
theorem read_rule {Invariant : Scan → List Piece → Prop}
    (step : ∀ s ps c, Invariant s ps → Invariant (s.step c).1 (ps ++ (s.step c).2)) {s : Scan}
    {ps : List Piece} (holds : Invariant s ps) (cs : List Char) :
    Invariant (s.read cs).1 (ps ++ (s.read cs).2) := by
  induction cs generalizing s ps with
  | nil =>
    rw [read, List.append_nil]
    exact holds
  | cons c cs ih =>
    rw [read, ← List.append_assoc]
    exact ih (step s ps c holds)

end Scan

/-- What the author is told of pieces that are faults. -/
def faultsOf (ps : List Piece) : List Diagnostic := ps.filterMap Piece.diagnostic?

theorem faultsOf_append (ps qs : List Piece) : faultsOf (ps ++ qs) = faultsOf ps ++ faultsOf qs :=
  List.filterMap_append

theorem tokens_lex (source : String) : (lex source).tokens = tokensOf (pieces source) := rfl

theorem diagnostics_lex (source : String) : (lex source).diagnostics = faultsOf (pieces source) :=
  rfl

/-- The character begins a word where no word is being read. -/
def OpensWord (c : Char) : Prop := c ≠ ' ' ∧ c ≠ '\t' ∧ c ≠ '\r' ∧ c ≠ '\n' ∧ c ≠ '#'

instance (c : Char) : Decidable (OpensWord c) := by unfold OpensWord; infer_instance

/-- No word goes on behind the end of its line. -/
theorem Lexeme.extend?_feed (l : Lexeme) (place : Position) : l.extend? place '\n' = none := by
  have word : isWordPart '\n' = false := by decide
  have number : isNumberPart '\n' = false := by decide
  obtain ⟨start, spelling, shape⟩ := l
  cases shape <;> simp [extend?, word, number]

theorem Place.insideWord_ne_margin {l : Lexeme} {start : Position} {width : Nat} :
    insideWord l ≠ margin start width := nofun

namespace Scan

/-- No word is being read. -/
def Outside (s : Scan) : Prop := ∀ l, s.place ≠ .insideWord l

theorem outside_of_margin {s : Scan} {start : Position} {width : Nat}
    (place : s.place = .margin start width) : s.Outside := by simp [Outside, place]

theorem outside_of_betweenWords {s : Scan} (place : s.place = .betweenWords) : s.Outside := by
  simp [Outside, place]

theorem outside_of_insideComment {s : Scan} (place : s.place = .insideComment) : s.Outside := by
  simp [Outside, place]

/-- Of a word that is being read everything holds where no word is being read. -/
theorem Outside.elim {s : Scan} (outside : s.Outside) {Holds : Lexeme → Prop} :
    ∀ l, s.place = .insideWord l → Holds l :=
  fun l inside => absurd inside (outside l)

theorem outside_settleWord (s : Scan) : s.settleWord.1.Outside := by
  intro l
  unfold settleWord
  split
  · exact Place.noConfusion
  · rename_i other
    exact other l

theorem settleWord_of_outside {s : Scan} (outside : s.Outside) : s.settleWord = (s, []) := by
  unfold settleWord
  split
  · rename_i l place
    exact absurd place (outside l)
  · rfl

theorem next_foldl_note (ps : List Piece) (s : Scan) : (ps.foldl note s).next = s.next := by
  induction ps generalizing s with
  | nil => rfl
  | cons p ps ih =>
    rw [List.foldl_cons, ih]
    cases p <;> rfl

theorem next_settleWord (s : Scan) : s.settleWord.1.next = s.next := by
  unfold settleWord
  split
  · exact next_foldl_note _ s
  · rfl

theorem next_enterLine (s : Scan) (span : Span) (width : Nat) :
    (s.enterLine span width).1.next = s.next := by
  unfold enterLine
  split <;> rfl

/-- Opening and closing blocks settles tokens of the layout. -/
theorem layout_enterLine (s : Scan) (span : Span) (width : Nat) :
    ∀ t ∈ tokensOf (s.enterLine span width).2, t.kind.isLayout = true := by
  intro t there
  rw [mem_tokensOf] at there
  unfold enterLine at there
  split at there
  · cases List.mem_singleton.1 there
    rfl
  · rcases List.mem_append.1 there with there | there
    · obtain ⟨_, -, same⟩ := List.mem_map.1 there
      cases same
      rfl
    · split at there
      · cases there
      · cases List.mem_singleton.1 there

/-- Whatever opening and closing blocks settles is about the margin. -/
theorem span_enterLine (s : Scan) (span : Span) (width : Nat) :
    ∀ p ∈ (s.enterLine span width).2, p.span = span := by
  intro p there
  unfold enterLine at there
  split at there
  · obtain rfl := List.mem_singleton.1 there
    rfl
  · rcases List.mem_append.1 there with there | there
    · obtain ⟨_, -, rfl⟩ := List.mem_map.1 there
      rfl
    · split at there
      · cases there
      · obtain rfl := List.mem_singleton.1 there
        rfl

/-- The token in which the line ends, if the line holds words. -/
def lineEnd (s : Scan) : List Piece :=
  if s.hasWords then [.token ⟨.newline, "\n", ⟨s.next, s.next.after '\n'⟩⟩] else []

/-- Where a character that settles nothing and begins nothing leaves a scan, and why. -/
inductive Passes (c : Char) (s : Scan) : Place → Prop
  | blank (blank : c = ' ' ∨ c = '\t' ∨ c = '\r' ∨ c = '\n') : Passes c s .betweenWords
  | comment (mark : c = '#') : Passes c s .insideComment
  | margin {start : Position} {width : Nat} (place : s.place = .margin start width)
      (mark : c = '\r') : Passes c s .insideComment
  | goesOn (place : s.place = .insideComment) (sameLine : c ≠ '\n') : Passes c s .insideComment

theorem Passes.quiet {c : Char} {s : Scan} {place : Place} (passes : s.Passes c place) :
    place = .betweenWords ∨ place = .insideComment := by
  cases passes with
  | blank => exact .inl rfl
  | comment | margin | goesOn => exact .inr rfl

/-- What a character can do to a scan that it does not leave inside the same line's last word: the
    scan before it, the scan behind it and what it settles. -/
inductive Consumes (c : Char) : Scan → Scan → List Piece → Prop
  /-- The character is a blank or belongs to a comment. -/
  | pass {s : Scan} {place : Place} (outside : s.Outside)
      (passes : Passes c s place) :
      Consumes c s { s with place, next := s.next.after c } []
  | widen {s : Scan} {start : Position} {width more : Nat} (place : s.place = .margin start width)
      (blank : c = ' ' ∧ more = width + 1 ∨ c = '\t' ∧ more = width + tabWidth) :
      Consumes c s { s with place := .margin start more, next := s.next.after c } []
  /-- A line feed ends the line. -/
  | endLine {s : Scan} (outside : s.Outside) (feed : c = '\n') (unbracketed : s.nesting = 0) :
      Consumes c s { s with place := .margin (s.next.after '\n') 0, hasWords := false,
                            next := s.next.after '\n' } s.lineEnd
  /-- A word begins in a line that holds others already, or between brackets. -/
  | begin {s : Scan} (place : s.place = .betweenWords) (opens : OpensWord c) :
      Consumes c s { s with place := .insideWord (.ofChar s.next c), next := s.next.after c } []
  /-- The first word of a line begins. -/
  | enter {s : Scan} {start : Position} {width : Nat} (place : s.place = .margin start width)
      (opens : OpensWord c) :
      Consumes c s { (s.enterLine ⟨start, s.next⟩ width).1 with
                      place := .insideWord (.ofChar s.next c), next := s.next.after c }
        (s.enterLine ⟨start, s.next⟩ width).2
  | extend {s : Scan} {l longer : Lexeme} (place : s.place = .insideWord l)
      (extended : l.extend? s.next c = some longer) :
      Consumes c s { s with place := .insideWord longer, next := s.next.after c } []

theorem consumes_breakLine {s : Scan} (outside : s.Outside) :
    Consumes '\n' s { s.breakLine.1 with next := s.next.after '\n' } s.breakLine.2 := by
  unfold breakLine
  by_cases bracketed : 0 < s.nesting
  · rw [if_pos bracketed]
    exact .pass outside (.blank (by simp))
  · rw [if_neg bracketed]
    exact .endLine outside rfl (by omega)

theorem consumes_stepOutside {s : Scan} (place : s.place = .betweenWords) (c : Char) :
    Consumes c s { (s.stepOutside c).1 with next := s.next.after c } (s.stepOutside c).2 := by
  have outside := outside_of_betweenWords place
  unfold stepOutside
  by_cases blank : c = ' ' ∨ c = '\t' ∨ c = '\r'
  · rw [if_pos blank]
    exact .pass outside (.blank (by grind))
  · rw [if_neg blank]
    by_cases feed : c = '\n'
    · subst feed
      exact consumes_breakLine outside
    · rw [if_neg feed]
      by_cases comment : c = '#'
      · rw [if_pos comment]
        exact .pass outside (.comment comment)
      · rw [if_neg comment]
        exact .begin place (by simp_all [OpensWord])

theorem consumes_stepMargin {s : Scan} {start : Position} {width : Nat}
    (place : s.place = .margin start width) (c : Char) :
    Consumes c s { (s.stepMargin start width c).1 with next := s.next.after c }
      (s.stepMargin start width c).2 := by
  have outside := outside_of_margin place
  unfold stepMargin
  by_cases blank : c = ' '
  · rw [if_pos blank]
    exact .widen place (.inl ⟨blank, rfl⟩)
  · rw [if_neg blank]
    by_cases tab : c = '\t'
    · rw [if_pos tab]
      exact .widen place (.inr ⟨tab, rfl⟩)
    · rw [if_neg tab]
      by_cases feed : c = '\n'
      · subst feed
        exact consumes_breakLine outside
      · rw [if_neg feed]
        by_cases comment : c = '\r' ∨ c = '#'
        · rw [if_pos comment]
          rcases comment with mark | mark
          · exact .pass outside (.margin place mark)
          · exact .pass outside (.comment mark)
        · rw [if_neg comment]
          have entered := Consumes.enter place (c := c) (by simp_all [OpensWord])
          have next := next_enterLine s ⟨start, s.next⟩ width
          rw [← next] at entered
          simpa [next] using entered

/-- A word that is being read behind a character begins with it or has gone on with it. -/
theorem Consumes.reading {c : Char} {s after : Scan} {new : List Piece}
    (consumed : Consumes c s after new) {l : Lexeme} (inside : after.place = .insideWord l) :
    (OpensWord c ∧ l = .ofChar s.next c) ∨
      ∃ shorter, s.place = .insideWord shorter ∧ shorter.extend? s.next c = some l := by
  cases consumed with
  | pass _ passes =>
    rcases passes.quiet with rfl | rfl
    · exact absurd inside (outside_of_betweenWords rfl l)
    · exact absurd inside (outside_of_insideComment rfl l)
  | widen | endLine => exact absurd inside (outside_of_margin rfl l)
  | begin _ opens | enter _ opens => exact .inl ⟨opens, (Place.insideWord.inj inside).symm⟩
  | @extend shorter longer place extended =>
    obtain rfl := Place.insideWord.inj inside
    exact .inr ⟨shorter, place, extended⟩

theorem wordsOf_lineEnd (s : Scan) : wordsOf (tokensOf s.lineEnd) = [] := by
  unfold lineEnd
  cases s.hasWords <;> rfl

/-- Words are settled when they end. -/
theorem Consumes.wordsOf {c : Char} {s after : Scan} {new : List Piece}
    (consumed : Consumes c s after new) : wordsOf (tokensOf new) = [] := by
  cases consumed with
  | enter => exact wordsOf_of_layout (layout_enterLine _ _ _)
  | endLine => exact wordsOf_lineEnd _
  | pass | widen | begin | extend => rfl

/-- A character goes on with the word that is being read, or ends it and is taken then. -/
theorem step_cases (s : Scan) (c : Char) :
    Consumes c s (s.step c).1 (s.step c).2 ∨
      ∃ after new, Consumes c s.settleWord.1 after new ∧
        s.step c = (after, s.settleWord.2 ++ new) := by
  rw [show s.step c = ({ (s.take c).1 with next := s.next.after c }, (s.take c).2) from rfl]
  unfold take
  split
  case h_1 start width place => exact .inl (consumes_stepMargin place c)
  case h_2 place => exact .inl (consumes_stepOutside place c)
  case h_3 place =>
    left
    have outside := outside_of_insideComment place
    by_cases feed : c = '\n'
    · subst feed
      exact consumes_breakLine outside
    · rw [if_neg feed]
      have passed := Consumes.pass outside (.goesOn place feed)
      rwa [← place] at passed
  case h_4 l place =>
    split
    · rename_i longer extended
      exact .inl (.extend place extended)
    · right
      have between : s.settleWord.1.place = .betweenWords := by
        unfold settleWord
        rw [place]
      have taken := consumes_stepOutside between c
      rw [next_settleWord] at taken
      exact ⟨_, _, taken, rfl⟩

/-- A line feed ends the word in front of it and then the line. -/
theorem step_feed (s : Scan) : s.step '\n' =
    ({ s.settleWord.1.breakLine.1 with next := s.next.after '\n' },
      s.settleWord.2 ++ s.settleWord.1.breakLine.2) := by
  unfold step take
  cases place : s.place with
  | insideWord l => simp [l.extend?_feed, stepOutside]
  | margin => simp [settleWord, place, stepMargin]
  | betweenWords => simp [settleWord, place, stepOutside]
  | insideComment => simp [settleWord, place]

/-- What the end of a text settles behind the last word: its line, the open blocks and the end. -/
def ending (s : Scan) : List Piece :=
  (if s.hasWords then [.token (.silent .newline (.point s.next))] else []) ++
    s.blocks.map (fun _ => .token (.silent .outdent (.point s.next))) ++
      [.token (.silent .eof (.point s.next))]

/-- What the end of a text settles are tokens of the layout at that place. -/
theorem mem_ending {s : Scan} {p : Piece} (there : p ∈ s.ending) :
    ∃ kind : TokenKind, kind.isLayout = true ∧ p = .token (.silent kind (.point s.next)) := by
  rcases List.mem_append.1 there with there | there
  · rcases List.mem_append.1 there with there | there
    · split at there
      · exact ⟨.newline, rfl, List.mem_singleton.1 there⟩
      · cases there
    · obtain ⟨_, -, rfl⟩ := List.mem_map.1 there
      exact ⟨.outdent, rfl, rfl⟩
  · exact ⟨.eof, rfl, List.mem_singleton.1 there⟩

theorem layout_ending (s : Scan) : ∀ t ∈ tokensOf s.ending, t.kind.isLayout = true := by
  intro t there
  obtain ⟨kind, layout, same⟩ := mem_ending (mem_tokensOf.1 there)
  cases same
  exact layout

theorem span_ending (s : Scan) : ∀ p ∈ s.ending, p.span = .point s.next := by
  intro p there
  obtain ⟨kind, -, rfl⟩ := mem_ending there
  rfl

theorem wordsOf_ending (s : Scan) : wordsOf (tokensOf s.ending) = [] :=
  wordsOf_of_layout s.layout_ending

theorem finish_eq (s : Scan) : s.finish = s.settleWord.2 ++ s.settleWord.1.ending := by
  simp [finish, ending]

/-- Settling a word counts its brackets. -/
theorem nesting_foldl_note (ps : List Piece) (s : Scan) :
    (ps.foldl note s).nesting =
      (tokensOf ps).foldl (fun nesting t => nestingAfter nesting t.kind) s.nesting := by
  induction ps generalizing s with
  | nil => rfl
  | cons p ps ih =>
    rw [List.foldl_cons, ih]
    cases p <;> rfl

theorem hasWords_foldl_note (ps : List Piece) (s : Scan) :
    (ps.foldl note s).hasWords = (s.hasWords || !(tokensOf ps).isEmpty) := by
  induction ps generalizing s with
  | nil => simp [tokensOf]
  | cons p ps ih =>
    rw [List.foldl_cons, ih]
    cases p <;> simp [note, tokensOf, List.filterMap_cons, Piece.token?]

theorem blocks_foldl_note (ps : List Piece) (s : Scan) :
    (ps.foldl note s).blocks = s.blocks := by
  induction ps generalizing s with
  | nil => rfl
  | cons p ps ih =>
    rw [List.foldl_cons, ih]
    cases p <;> rfl

theorem settleWord_of_insideWord {s : Scan} {l : Lexeme} (place : s.place = .insideWord l) :
    s.settleWord = ({ (l.settle s.next).foldl note s with place := .betweenWords },
      l.settle s.next) := by
  unfold settleWord
  rw [place]

end Scan

section Rules

variable {Invariant : Scan → List Piece → Prop}
  (settle : ∀ s l ps, s.place = .insideWord l → Invariant s ps →
    Invariant s.settleWord.1 (ps ++ s.settleWord.2))
include settle

/-- What is kept when a word ends is kept where no word ends. -/
theorem Scan.settleWord_rule (s : Scan) (ps : List Piece) (holds : Invariant s ps) :
    Invariant s.settleWord.1 (ps ++ s.settleWord.2) := by
  by_cases outside : s.Outside
  · rw [settleWord_of_outside outside, List.append_nil]
    exact holds
  · obtain ⟨l, place⟩ := Classical.not_forall.1 outside
    exact settle s l ps (not_not.1 place) holds

variable (consume : ∀ c s after new ps, Scan.Consumes c s after new → Invariant s ps →
  Invariant after (ps ++ new))
include consume

/-- What is kept when a word ends and by whatever a character does is kept by every character. -/
theorem Scan.step_rule (s : Scan) (ps : List Piece) (c : Char) (holds : Invariant s ps) :
    Invariant (s.step c).1 (ps ++ (s.step c).2) := by
  rcases s.step_cases c with consumed | ⟨after, new, consumed, stepped⟩
  · exact consume c _ _ _ ps consumed holds
  · rw [stepped, ← List.append_assoc]
    exact consume c _ _ _ _ consumed (settleWord_rule settle s ps holds)

/-- What holds at the beginning of a text, is kept when a word ends and is kept by whatever a
    character does, holds when the last word of the text has ended. -/
theorem pieces_rule (start : Invariant .initial []) (source : String) :
    ∃ s ps, s.Outside ∧ Invariant s ps ∧ pieces source = ps ++ s.ending := by
  have holds := Scan.read_rule (Scan.step_rule settle consume) start source.toList
  refine ⟨_, _, Scan.outside_settleWord _, Scan.settleWord_rule settle _ _ holds, ?_⟩
  rw [Scan.pieces_eq_read, Scan.finish_eq, List.nil_append, List.append_assoc]

end Rules

/-- What holds of a word where it begins and is kept as it goes on makes out what holds of the words
    of a text. -/
theorem words_rule {Part : Lexeme → Prop} {Whole : Token → Prop}
    (begins : ∀ start c, OpensWord c → Part (.ofChar start c))
    (goesOn : ∀ l longer place c, Part l → l.extend? place c = some longer → Part longer)
    (settles : ∀ l stop, Part l → ∀ t ∈ tokensOf (l.settle stop), Whole t) (source : String) :
    ∀ t ∈ wordsOf (lex source).tokens, Whole t := by
  let Reads (s : Scan) (ps : List Piece) : Prop :=
    (∀ t ∈ wordsOf (tokensOf ps), Whole t) ∧ ∀ l, s.place = .insideWord l → Part l
  have start : Reads .initial [] :=
    ⟨List.forall_mem_nil _, (Scan.outside_of_margin rfl).elim⟩
  have settle (s : Scan) (l : Lexeme) (ps : List Piece) (place : s.place = .insideWord l) :
      Reads s ps → Reads s.settleWord.1 (ps ++ s.settleWord.2) := by
    rintro ⟨settled, reading⟩
    refine ⟨?_, s.outside_settleWord.elim⟩
    rw [Scan.settleWord_of_insideWord place, tokensOf_append, wordsOf_append]
    intro t member
    rcases List.mem_append.1 member with member | member
    · exact settled t member
    · exact settles l s.next (reading l place) t (List.mem_of_mem_filter member)
  have consume (c : Char) (s after : Scan) (new ps : List Piece)
      (consumed : Scan.Consumes c s after new) : Reads s ps → Reads after (ps ++ new) := by
    rintro ⟨settled, reading⟩
    refine ⟨?_, ?_⟩
    · rw [tokensOf_append, wordsOf_append, consumed.wordsOf, List.append_nil]
      exact settled
    · intro l inside
      rcases consumed.reading inside with ⟨opens, rfl⟩ | ⟨shorter, place, extended⟩
      · exact begins s.next c opens
      · exact goesOn shorter l s.next c (reading shorter place) extended
  obtain ⟨s, ps, -, ⟨settled, -⟩, all⟩ := pieces_rule settle consume start source
  have words : wordsOf (lex source).tokens = wordsOf (tokensOf ps) := by
    change wordsOf (tokensOf (pieces source)) = _
    rw [all, tokensOf_append, wordsOf_append, s.wordsOf_ending, List.append_nil]
  rw [words]
  exact settled

end TekLang
