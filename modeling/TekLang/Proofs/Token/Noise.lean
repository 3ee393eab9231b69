import TekLang.Proofs.Token.Joining
import TekLang.Proofs.Token.Words

/-!
# Noise in the layout

Lines without words and the carriage returns of line ends are noise: a text with more of them is
read into the same tokens with the same reports, but for the places. Behind a line without words a
scan is where it was in front of it (`Scan.read_wordless`), and a carriage return in front of a line
feed does nothing that the line feed would not do by itself (`Scan.read_return`). As reading depends
on the place only as far as places go, everything behind is read alike.
-/

namespace TekLang

/-- A line that holds no word: blanks, perhaps a comment, and the line feed. -/
inductive IsWordless : List Char → Prop
  | blank {margin : List Char} (blanks : ∀ c ∈ margin, c = ' ' ∨ c = '\t') :
    IsWordless (margin ++ ['\n'])
  | comment {margin text : List Char} (blanks : ∀ c ∈ margin, c = ' ' ∨ c = '\t')
    (sameLine : '\n' ∉ text) : IsWordless (margin ++ '#' :: (text ++ ['\n']))

/-- The characters with a carriage return in front of every line feed. -/
def returned (cs : List Char) : List Char :=
  cs.flatMap fun c => if c = '\n' then ['\r', '\n'] else [c]

/-- Two texts are read into the same tokens and the same reports, but for the places. -/
structure Lexed.IsLike (a b : Lexed) : Prop where
  tokens : a.tokens.map Token.unplaced = b.tokens.map Token.unplaced
  messages : a.diagnostics.map (·.message) = b.diagnostics.map (·.message)

theorem messages_unplaced (ps : List Piece) :
    (faultsOf (ps.map Piece.unplaced)).map (·.message) = (faultsOf ps).map (·.message) := by
  induction ps with
  | nil => rfl
  | cons p ps ih =>
    cases p with
    | token => exact ih
    | fault f => exact congrArg (f.message :: ·) ih

theorem isLike_of_pieces {P Q : String}
    (same : (pieces P).map Piece.unplaced = (pieces Q).map Piece.unplaced) :
    (lex P).IsLike (lex Q) where
  tokens := by rw [tokens_lex, tokens_lex, ← tokensOf_unplaced, same, tokensOf_unplaced]
  messages := by
    rw [diagnostics_lex, diagnostics_lex, ← messages_unplaced, same, messages_unplaced]

namespace Lexeme

variable {l longer : Lexeme}

/-- A carriage return does not close the word, should it be a string. -/
def StaysOpen (l : Lexeme) : Prop := ∀ quote escaped, l.shape = .quoted quote escaped → quote ≠ '\r'

theorem staysOpen_ofChar (start : Position) (c : Char) : (ofChar start c).StaysOpen := by
  intro quote escaped shape
  have begins := Shape.begins_ofChar c
  rw [show Shape.ofChar c = .quoted quote escaped from shape] at begins
  cases begins with
  | quote marks => rcases marks with rfl | rfl <;> decide

theorem StaysOpen.extend {place : Position} {c : Char} (stays : l.StaysOpen)
    (extended : l.extend? place c = some longer) : longer.StaysOpen := by
  intro quote escaped shape
  cases grows_of_extend? extended with
  | @quoted mark escaped' escapes shape' =>
    obtain ⟨rfl, -⟩ := Shape.quoted.inj shape
    exact stays mark escaped' shape'
  | word | number | dot | fraction | withEqual | closed => cases shape

/-- A word that goes on with a carriage return is a string, which no line feed closes either. -/
theorem StaysOpen.settle_return {place : Position} (stays : l.StaysOpen)
    (extended : l.extend? place '\r' = some longer) {stop stop' : Position} :
    l.settle stop = [.fault .unterminatedString ⟨l.start, stop⟩] ∧
      longer.settle stop' = [.fault .unterminatedString ⟨l.start, stop'⟩] := by
  cases grows_of_extend? extended with
  | @quoted _ _ escapes shape => exact ⟨by rw [settle, shape], rfl⟩
  | closed shape quote => exact absurd quote.symm (stays _ _ shape)
  | word _ part => exact absurd part (by decide)
  | number _ part => exact absurd part (by decide)
  | dot _ dot => exact absurd dot (by decide)
  | fraction _ digit => exact absurd digit (by decide)
  | withEqual _ equal => exact absurd equal (by decide)

end Lexeme

namespace Scan

variable {s : Scan}

/-! ## Lines without words -/

/-- The scan stands at the beginning of a line, which between brackets is a place like any other. -/
def AtFeed (s : Scan) : Prop := s.AtStart ∨ s.place = .betweenWords ∧ 0 < s.nesting

/-- Behind a line feed, and in front of a whole text, a line begins. -/
theorem atFeed_read {front : List Char} (feed : front = [] ∨ front.getLast? = some '\n') :
    (initial.read front).1.AtFeed := by
  rcases feed with rfl | feed
  · exact .inl ⟨⟨_, rfl⟩, rfl, rfl⟩
  · obtain ⟨before, rfl⟩ := List.getLast?_eq_some_iff.1 feed
    have reached : (initial.read (before ++ ['\n'])).1 = ((initial.read before).1.step '\n').1 := by
      rw [read_append]
      rfl
    rw [reached]
    by_cases flat : ((initial.read before).1.step '\n').1.nesting = 0
    · obtain ⟨place, words⟩ := freshLine_feed flat
      exact .inl ⟨place, words, flat⟩
    · refine .inr ⟨?_, Nat.pos_of_ne_zero flat⟩
      rw [step_feed] at flat ⊢
      unfold breakLine at flat ⊢
      split
      · rfl
      · next unbracketed =>
        rw [if_neg unbracketed] at flat
        exact absurd (Nat.eq_zero_of_not_pos unbracketed) flat

/-- No word is being read and no comment. -/
def Blank (s : Scan) : Prop :=
  (∃ start width, s.place = .margin start width) ∨ s.place = .betweenWords

theorem AtFeed.blank (atFeed : s.AtFeed) : s.Blank := by
  rcases atFeed with ⟨⟨start, place⟩, -, -⟩ | ⟨place, -⟩
  · exact .inl ⟨start, 0, place⟩
  · exact .inr place

theorem Blank.outside (blank : s.Blank) : s.Outside := by
  rcases blank with ⟨start, width, place⟩ | place
  · exact outside_of_margin place
  · exact outside_of_betweenWords place

theorem reads_of_step {c : Char} {after : Scan} {ps : List Piece}
    (stepped : s.step c = (after, ps)) :
    s.Reads [c] after ps := by
  have reads := reads_single s c
  rwa [stepped] at reads

/-- Blanks move a scan that reads no word and no comment, and do nothing else. -/
theorem Blank.read (blank : s.Blank) {cs : List Char} (blanks : ∀ c ∈ cs, c = ' ' ∨ c = '\t') :
    ∃ place next, s.Reads cs { s with place, next } [] ∧ Blank { s with place, next } := by
  induction cs generalizing s with
  | nil => exact ⟨s.place, s.next, reads_nil s, blank⟩
  | cons c cs ih =>
    obtain ⟨first, others⟩ := List.forall_mem_cons.1 blanks
    have moved : ∃ place next, s.step c = ({ s with place, next }, []) ∧
        Blank { s with place, next } := by
      rcases blank with ⟨start, width, place⟩ | place
      · rcases first with rfl | rfl
        · exact ⟨.margin start (width + 1), _, by simp [step, take, place, stepMargin]; rfl,
            .inl ⟨start, _, rfl⟩⟩
        · exact ⟨.margin start (width + tabWidth), _, by simp [step, take, place, stepMargin]; rfl,
            .inl ⟨start, _, rfl⟩⟩
      · refine ⟨.betweenWords, s.next.after c, ?_, .inr rfl⟩
        rcases first with rfl | rfl <;> simp [step, take, place, stepOutside]
    obtain ⟨place, next, stepped, blank'⟩ := moved
    obtain ⟨place', next', rest, blank''⟩ := ih blank' others
    refine ⟨place', next', ?_, blank''⟩
    exact (reads_of_step stepped).append rest

/-- A comment mark opens a comment. -/
theorem Blank.step_mark (blank : s.Blank) :
    s.step '#' = ({ s with place := .insideComment, next := s.next.after '#' }, []) := by
  rcases blank with ⟨start, width, place⟩ | place
  · simp [step, take, place, stepMargin]
  · simp [step, take, place, stepOutside]

/-- A comment goes on to the end of its line. -/
theorem reads_comment (place : s.place = .insideComment) {cs : List Char} (sameLine : '\n' ∉ cs) :
    ∃ next, s.Reads cs { s with next } [] := by
  induction cs generalizing s with
  | nil => exact ⟨s.next, reads_nil s⟩
  | cons c cs ih =>
    obtain ⟨other, sameLine⟩ := List.ne_and_not_mem_of_not_mem_cons sameLine
    have stepped : s.step c = ({ s with next := s.next.after c }, []) := by
      simp [step, take, place, other.symm]
    obtain ⟨next, rest⟩ := ih (s := { s with next := s.next.after c }) place sameLine
    exact ⟨next, (reads_of_step stepped).append rest⟩

/-- Wherever in a line without words a scan has got to, the line feed takes it to the beginning of a
    line again. -/
theorem AtFeed.step_feed (atFeed : s.AtFeed) {place : Place} {next : Position}
    (outside : Outside { s with place, next }) :
    settledAnywhere (step { s with place, next } '\n') = (s.unplaced, []) := by
  rw [Scan.step_feed, settleWord_of_outside outside]
  rcases atFeed with ⟨⟨start, begun⟩, words, flat⟩ | ⟨between, bracketed⟩
  · simp [settledAnywhere, breakLine, flat, words, unplaced, begun, Place.unplaced]
  · simp [settledAnywhere, breakLine, bracketed, unplaced, between, Place.unplaced]

/-- Behind a line without words everything is as it was in front of it. -/
theorem read_wordless (atFeed : s.AtFeed) {line : List Char} (wordless : IsWordless line) :
    settledAnywhere (s.read line) = (s.unplaced, []) := by
  cases wordless with
  | blank blanks =>
    obtain ⟨place, next, reads, blank⟩ := atFeed.blank.read blanks
    have whole := reads.append (reads_single _ '\n')
    rw [whole]
    exact atFeed.step_feed blank.outside
  | comment blanks sameLine =>
    obtain ⟨place, next, reads, blank⟩ := atFeed.blank.read blanks
    have mark := reads_of_step blank.step_mark
    obtain ⟨next', comment⟩ := reads_comment
      (s := { s with place := .insideComment, next := next.after '#' }) rfl sameLine
    have whole := reads.append (mark.append (comment.append (reads_single _ '\n')))
    rw [List.singleton_append] at whole
    rw [whole]
    exact atFeed.step_feed (outside_of_insideComment rfl)

/-! ## Carriage returns -/

/-- No more than places change in how a line is broken when it is broken elsewhere. -/
theorem breakLine_elsewhere (s : Scan) (place : Place) (next : Position) :
    settledAnywhere (breakLine { s with place, next }) = settledAnywhere s.breakLine := by
  unfold breakLine
  by_cases bracketed : 0 < s.nesting
  · rw [if_pos bracketed, if_pos bracketed]
    rfl
  · rw [if_neg bracketed, if_neg bracketed]
    refine Prod.ext rfl ?_
    simp only [settledAnywhere]
    split_ifs <;> rfl

/-- No string that is being read ends in a carriage return. -/
def QuotesOpen (s : Scan) : Prop := ∀ l, s.place = .insideWord l → l.StaysOpen

theorem QuotesOpen.step (opened : s.QuotesOpen) (c : Char) : (s.step c).1.QuotesOpen := by
  intro l inside
  have reading : (∃ start, l = .ofChar start c) ∨
      ∃ shorter, s.place = .insideWord shorter ∧ ∃ place, shorter.extend? place c = some l := by
    rcases s.step_cases c with consumed | ⟨after, new, consumed, stepped⟩
    · rcases consumed.reading inside with ⟨-, begun⟩ | ⟨shorter, place, extended⟩
      · exact .inl ⟨_, begun⟩
      · exact .inr ⟨shorter, place, _, extended⟩
    · rw [stepped] at inside
      rcases consumed.reading inside with ⟨-, begun⟩ | ⟨shorter, place, -⟩
      · exact .inl ⟨_, begun⟩
      · exact absurd place (s.outside_settleWord shorter)
  rcases reading with ⟨start, rfl⟩ | ⟨shorter, place, here, extended⟩
  · exact Lexeme.staysOpen_ofChar start c
  · exact (opened shorter place).extend extended

/-- A carriage return leaves a scan where a line feed does what it would have done in front of
    it. -/
theorem settleWord_return (opened : s.QuotesOpen) : ∃ place next,
    (s.step '\r').1.settleWord.1 = { s.settleWord.1 with place, next } ∧
      ((s.step '\r').2 ++ (s.step '\r').1.settleWord.2).map Piece.unplaced =
        s.settleWord.2.map Piece.unplaced := by
  cases place : s.place with
  | margin start width =>
    have stepped :
        s.step '\r' = ({ s with place := .insideComment, next := s.next.after '\r' }, []) := by
      simp [step, take, place, stepMargin]
    rw [stepped, settleWord_of_outside (outside_of_insideComment rfl),
      settleWord_of_outside (outside_of_margin place)]
    exact ⟨_, _, rfl, rfl⟩
  | betweenWords =>
    have stepped :
        s.step '\r' = ({ s with place := .betweenWords, next := s.next.after '\r' }, []) := by
      simp [step, take, place, stepOutside]
    rw [stepped, settleWord_of_outside (outside_of_betweenWords rfl),
      settleWord_of_outside (outside_of_betweenWords place)]
    exact ⟨_, _, rfl, rfl⟩
  | insideComment =>
    have stepped :
        s.step '\r' = ({ s with place := .insideComment, next := s.next.after '\r' }, []) := by
      simp [step, take, place]
    rw [stepped, settleWord_of_outside (outside_of_insideComment rfl),
      settleWord_of_outside (outside_of_insideComment place)]
    exact ⟨_, _, rfl, rfl⟩
  | insideWord l =>
    cases extended : l.extend? s.next '\r' with
    | none =>
      have stepped : s.step '\r' =
          ({ s.settleWord.1 with place := .betweenWords, next := s.next.after '\r' },
            s.settleWord.2) := by
        simp [step, take, place, extended, stepOutside]
      rw [stepped, settleWord_of_outside (outside_of_betweenWords rfl), List.append_nil]
      exact ⟨_, _, rfl, rfl⟩
    | some longer =>
      have stepped : s.step '\r' =
          ({ s with place := .insideWord longer, next := s.next.after '\r' }, []) := by
        simp [step, take, place, extended]
      obtain ⟨short, long⟩ := (opened l place).settle_return extended
      rw [stepped, settleWord_of_insideWord rfl, settleWord_of_insideWord place, short, long]
      exact ⟨_, _, rfl, rfl⟩

/-- A carriage return in front of a line feed does nothing. -/
theorem read_return (opened : s.QuotesOpen) :
    settledAnywhere (s.read ['\r', '\n']) = settledAnywhere (s.step '\n') := by
  obtain ⟨place, next, scan, word⟩ := settleWord_return opened
  have broken := s.settleWord.1.breakLine_elsewhere place next
  rw [← scan] at broken
  have both : s.read ['\r', '\n'] = (((s.step '\r').1.step '\n').1,
      (s.step '\r').2 ++ ((s.step '\r').1.step '\n').2) := by simp [read]
  rw [both, step_feed, step_feed]
  have behind : (s.step '\r').1.settleWord.1.breakLine.2.map Piece.unplaced =
      s.settleWord.1.breakLine.2.map Piece.unplaced := congrArg Prod.snd broken
  refine Prod.ext (unplaced_move (congrArg Prod.fst broken) _ _) ?_
  simp only [settledAnywhere, ← List.append_assoc]
  rw [List.map_append, word, behind, List.map_append]

/-- Carriage returns in front of line feeds do nothing to a text. -/
theorem piecesOf_returned {t : Scan} (same : s.unplaced = t.unplaced) (opened : s.QuotesOpen)
    (cs : List Char) :
    (s.piecesOf (returned cs)).map Piece.unplaced = (t.piecesOf cs).map Piece.unplaced := by
  induction cs generalizing s t with
  | nil =>
    rw [returned, List.flatMap_nil, piecesOf_unplaced, same, ← piecesOf_unplaced]
  | cons c cs ih =>
    have stepped : settledAnywhere (s.step c) = settledAnywhere (t.step c) := by
      rw [step_unplaced, same, ← step_unplaced]
    obtain ⟨front, split, reads, opened'⟩ : ∃ front, returned (c :: cs) = front ++ returned cs ∧
        settledAnywhere (s.read front) = settledAnywhere (t.step c) ∧
          (s.read front).1.QuotesOpen := by
      by_cases feed : c = '\n'
      · subst feed
        exact ⟨['\r', '\n'], rfl, (read_return opened).trans stepped, (opened.step _).step _⟩
      · have one : s.read [c] = s.step c := by simp [read]
        refine ⟨[c], by simp [returned, feed], ?_, ?_⟩
        · rw [one, stepped]
        · rw [one]
          exact opened.step c
    have pieces : (s.read front).2.map Piece.unplaced = (t.step c).2.map Piece.unplaced :=
      congrArg Prod.snd reads
    rw [split, piecesOf_append, piecesOf_cons, List.map_append, List.map_append, pieces,
      ih (congrArg Prod.fst reads) opened']

end Scan

/-- Noise in the layout changes no token and no report but for the places: a line without words that
    is put in where a line begins, and carriage returns in front of the line feeds. -/
theorem noise_changes_nothing (source : String) :
    (∀ front line rest, source.toList = front ++ rest →
      front = [] ∨ front.getLast? = some '\n' → IsWordless line →
        (lex (String.ofList (front ++ line ++ rest))).IsLike (lex source)) ∧
      (lex (String.ofList (returned source.toList))).IsLike (lex source) := by
  refine ⟨?_, ?_⟩
  · intro front line rest split feed wordless
    refine isLike_of_pieces ?_
    have passed := Scan.read_wordless (Scan.atFeed_read feed) wordless
    have quiet : ((Scan.initial.read front).1.read line).2.map Piece.unplaced = [] :=
      congrArg Prod.snd passed
    have back : ((Scan.initial.read front).1.read line).1.unplaced =
        (Scan.initial.read front).1.unplaced := congrArg Prod.fst passed
    rw [Scan.pieces_eq_piecesOf, Scan.pieces_eq_piecesOf, String.toList_ofList, split,
      List.append_assoc, Scan.piecesOf_append, Scan.piecesOf_append, Scan.piecesOf_append,
      List.map_append, List.map_append, List.map_append, quiet, List.nil_append,
      Scan.piecesOf_unplaced, back, ← Scan.piecesOf_unplaced]
  · refine isLike_of_pieces ?_
    rw [Scan.pieces_eq_piecesOf, Scan.pieces_eq_piecesOf, String.toList_ofList]
    exact Scan.piecesOf_returned rfl (Scan.outside_of_margin rfl).elim _

theorem noise_changes_nothing_bracketed :
    IsWordless ['\t', '#', ' ', 'c', '\n'] ∧
      (lex (String.ofList
        ("f(a,\n".toList ++ ['\t', '#', ' ', 'c', '\n'] ++ " b)\n".toList))).IsLike
        (lex "f(a,\n b)\n") := by
  have wordless : IsWordless ['\t', '#', ' ', 'c', '\n'] :=
    @IsWordless.comment ['\t'] [' ', 'c'] (by simp) (by decide)
  refine ⟨wordless, (noise_changes_nothing _).1 _ _ _ ?_ ?_ wordless⟩
  · decide
  · decide

end TekLang
