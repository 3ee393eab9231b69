import TekLang.Proofs.Token.Lines
import TekLang.Proofs.Token.Shapes
import TekLang.Proofs.Token.Steps

/-!
# Reading gives lines

Whatever a character does, what is settled of a text stays a sequence of lines and the beginning of
one more. `Scan.OnLine` is what carries the lines through the characters of a text, and
`Scan.Counts` is what carries the numbers of open blocks and open brackets.
-/

namespace TekLang

/-! ## The settled words -/

namespace Lexeme

/-- A word settles into tokens that are words, or into a fault. -/
theorem settle_cases {l : Lexeme} (spelt : l.IsSpelt) (stop : Position) :
    (tokensOf (l.settle stop) ≠ [] ∧ ∀ t ∈ tokensOf (l.settle stop), t.kind.isLayout = false) ∨
      tokensOf (l.settle stop) = [] ∧ faultsOf (l.settle stop) ≠ [] := by
  have one {kind : TokenKind} (word : kind.isLayout = false) :
      tokensOf [l.token kind stop] ≠ [] ∧
        ∀ t ∈ tokensOf [l.token kind stop], t.kind.isLayout = false := by
    refine ⟨List.cons_ne_nil _ _, ?_⟩
    intro t member
    obtain rfl := List.mem_singleton.1 member
    exact word
  unfold IsSpelt at spelt
  unfold settle
  split
  case h_1 kind shape =>
    rw [shape] at spelt
    exact .inl (one spelt)
  case h_2 => exact .inl (one (TokenKind.isLayout_ofWord _))
  case h_3 => exact .inl (one rfl)
  case h_4 dot shape =>
    refine .inl ⟨List.cons_ne_nil _ _, ?_⟩
    intro t member
    rcases List.mem_cons.1 member with rfl | member
    · rfl
    · obtain rfl := List.mem_singleton.1 member
      rfl
  case h_5 kind _ shape =>
    rw [shape] at spelt
    exact .inl (one (spelt.1 kind rfl))
  case h_6 | h_7 | h_8 => exact .inr ⟨rfl, List.cons_ne_nil _ _⟩

end Lexeme

namespace Scan

/-- A line opens one block, or it closes those that are wider than it stands. -/
theorem enterLine_cases (s : Scan) (span : Span) (width : Nat) :
    (s.blockWidth < width ∧ (s.enterLine span width).1 = { s with blocks := width :: s.blocks } ∧
        tokensOf (s.enterLine span width).2 = [.silent .indent span]) ∨
      (width ≤ s.blockWidth ∧
        (s.enterLine span width).1 = { s with blocks := s.blocks.dropWhile (width < ·) } ∧
        tokensOf (s.enterLine span width).2 =
          List.replicate (s.blocks.takeWhile (width < ·)).length (.silent .outdent span)) := by
  unfold enterLine
  by_cases deeper : s.blockWidth < width
  · rw [if_pos deeper]
    exact .inl ⟨deeper, rfl, rfl⟩
  · rw [if_neg deeper]
    refine .inr ⟨by omega, rfl, ?_⟩
    rw [tokensOf_append]
    have faults : tokensOf (if (s.blocks.dropWhile (width < ·)).headD 0 = width then []
        else [.fault .inconsistentIndentation span]) = [] := by
      split <;> rfl
    rw [faults, List.append_nil, List.map_const', tokensOf,
      List.filterMap_replicate_of_some (show Piece.token? (.token _) = _ from rfl)]

/-- What of a text is settled: whole lines, and the line that is being read as far as it is
    settled. -/
structure OnLine (s : Scan) (ps : List Piece) (lines : List LogicalLine)
    (entry words : List Token) : Prop where
  tokens : tokensOf ps = lines.flatMap LogicalLine.tokens ++ (entry ++ words)
  entered : IsEntry entry
  spelt : ∀ t ∈ words, t.kind.isLayout = false
  hasWords : s.hasWords = !words.isEmpty
  margin : ∀ start width, s.place = .margin start width → entry = [] ∧ words = []
  reading : ∀ l, s.place = .insideWord l → l.IsSpelt
  /-- As long as nothing was reported, only a line with words is entered. -/
  whole : faultsOf ps = [] →
    (∀ line ∈ lines, line.words ≠ []) ∧ (s.Outside → entry ≠ [] → words ≠ [])

variable {s : Scan} {ps : List Piece} {lines : List LogicalLine} {entry words : List Token}

/-- The line that is being read ends in `stop`. -/
theorem OnLine.close (line : s.OnLine ps lines entry words) {stop : List Token}
    (stopped : words = [] ∧ stop = [] ∨ words ≠ [] ∧ ∃ t, stop = [t] ∧ t.kind = .newline) :
    ∃ lines' : List LogicalLine,
      lines'.flatMap LogicalLine.tokens = tokensOf ps ++ stop ∧
        (faultsOf ps = [] → s.Outside → ∀ line ∈ lines', line.words ≠ []) := by
  by_cases filled : entry ++ words ≠ []
  · refine ⟨lines ++ [⟨entry, words, stop, line.entered, line.spelt, stopped, filled⟩], ?_, ?_⟩
    · simp [line.tokens, LogicalLine.tokens]
    · intro faultless outside other member
      obtain ⟨before, last⟩ := line.whole faultless
      rcases List.mem_append.1 member with member | member
      · exact before other member
      · obtain rfl := List.mem_singleton.1 member
        intro wordless
        have wordless : words = [] := wordless
        refine last outside ?_ wordless
        intro entryless
        exact filled (by simp [entryless, wordless])
  · obtain ⟨entryless, wordless⟩ := List.append_eq_nil_iff.1 (not_not.1 filled)
    refine ⟨lines, ?_, fun faultless _ => (line.whole faultless).1⟩
    rcases stopped with ⟨-, rfl⟩ | ⟨some, -⟩
    · simp [line.tokens, entryless, wordless]
    · exact absurd wordless some

theorem OnLine.settleWord {l : Lexeme} (line : s.OnLine ps lines entry words)
    (place : s.place = .insideWord l) :
    ∃ words', s.settleWord.1.OnLine (ps ++ s.settleWord.2) lines entry words' := by
  have spelt := line.reading l place
  rw [settleWord_of_insideWord place]
  refine ⟨words ++ tokensOf (l.settle s.next), ?_, line.entered, ?_, ?_, nofun,
    (outside_of_betweenWords rfl).elim, ?_⟩
  · simp [tokensOf_append, line.tokens]
  · intro t member
    rcases List.mem_append.1 member with member | member
    · exact line.spelt t member
    · rcases Lexeme.settle_cases spelt s.next with ⟨-, word⟩ | ⟨none, -⟩
      · exact word t member
      · rw [none] at member
        cases member
  · simp only [hasWords_foldl_note, line.hasWords]
    cases words <;> simp
  · intro faultless
    rw [faultsOf_append] at faultless
    obtain ⟨before, settled⟩ := List.append_eq_nil_iff.1 faultless
    refine ⟨(line.whole before).1, ?_⟩
    intro _ _ wordless
    rcases Lexeme.settle_cases spelt s.next with ⟨some, -⟩ | ⟨-, fault⟩
    · exact some (List.append_eq_nil_iff.1 wordless).2
    · exact fault settled

/-- Whatever a character does, what is settled stays a sequence of lines. -/
theorem OnLine.consume {c : Char} {after : Scan} {new : List Piece}
    (line : s.OnLine ps lines entry words) (consumed : Consumes c s after new) :
    ∃ lines' entry' words', after.OnLine (ps ++ new) lines' entry' words' := by
  cases consumed with
  | pass outside passes =>
    rw [List.append_nil]
    refine ⟨lines, entry, words, line.tokens, line.entered, line.spelt, line.hasWords, ?_, ?_, ?_⟩
    · rcases passes.quiet with rfl | rfl <;> exact nofun
    · rcases passes.quiet with rfl | rfl
      · exact (outside_of_betweenWords rfl).elim
      · exact (outside_of_insideComment rfl).elim
    · intro faultless
      obtain ⟨before, last⟩ := line.whole faultless
      exact ⟨before, fun _ => last outside⟩
  | widen place =>
    rw [List.append_nil]
    obtain ⟨rfl, rfl⟩ := line.margin _ _ place
    exact ⟨lines, [], [], line.tokens, line.entered, line.spelt, line.hasWords,
      fun _ _ _ => ⟨rfl, rfl⟩, (outside_of_margin rfl).elim,
      fun faultless => ⟨(line.whole faultless).1, fun _ some => absurd rfl some⟩⟩
  | endLine outside =>
    have stopped : words = [] ∧ tokensOf s.lineEnd = [] ∨
        words ≠ [] ∧ ∃ t, tokensOf s.lineEnd = [t] ∧ t.kind = .newline := by
      unfold lineEnd
      rw [line.hasWords]
      cases words with
      | nil => exact .inl ⟨rfl, rfl⟩
      | cons t words => exact .inr ⟨List.cons_ne_nil _ _, _, rfl, rfl⟩
    have faults : faultsOf s.lineEnd = [] := by
      unfold lineEnd
      split <;> rfl
    obtain ⟨lines', tokens, whole⟩ := line.close stopped
    refine ⟨lines', [], [], ?_, .inr (List.forall_mem_nil _), List.forall_mem_nil _, rfl,
      fun _ _ _ => ⟨rfl, rfl⟩, (outside_of_margin rfl).elim, ?_⟩
    · rw [tokensOf_append, tokens, List.append_nil, List.append_nil]
    · intro faultless
      rw [faultsOf_append, faults, List.append_nil] at faultless
      exact ⟨whole faultless outside, fun _ some => absurd rfl some⟩
  | begin place opens =>
    rw [List.append_nil]
    refine ⟨lines, entry, words, line.tokens, line.entered, line.spelt, line.hasWords,
      fun _ _ place => absurd place Place.insideWord_ne_margin, ?_, ?_⟩
    · intro l inside
      obtain rfl := Place.insideWord.inj inside
      exact Lexeme.isSpelt_ofChar _ _
    · intro faultless
      exact ⟨(line.whole faultless).1, fun outside => absurd rfl (outside _)⟩
  | @enter start width place opens =>
    obtain ⟨rfl, rfl⟩ := line.margin _ _ place
    refine ⟨lines, tokensOf (s.enterLine ⟨start, s.next⟩ width).2, [], ?_, ?_,
      List.forall_mem_nil _, ?_, fun _ _ place => absurd place Place.insideWord_ne_margin,
      ?_, ?_⟩
    · rw [tokensOf_append, line.tokens, List.append_nil, List.append_nil, List.append_nil]
    · rcases s.enterLine_cases ⟨start, s.next⟩ width with ⟨-, -, tokens⟩ | ⟨-, -, tokens⟩
      · exact .inl ⟨_, tokens, rfl⟩
      · rw [tokens]
        right
        intro t member
        rw [List.eq_of_mem_replicate member]
        rfl
    · rcases s.enterLine_cases ⟨start, s.next⟩ width with ⟨-, entered, -⟩ | ⟨-, entered, -⟩
      · rw [entered]
        exact line.hasWords
      · rw [entered]
        exact line.hasWords
    · intro l inside
      obtain rfl := Place.insideWord.inj inside
      exact Lexeme.isSpelt_ofChar _ _
    · intro faultless
      rw [faultsOf_append] at faultless
      have before := (List.append_eq_nil_iff.1 faultless).1
      exact ⟨(line.whole before).1, fun outside => absurd rfl (outside _)⟩
  | extend place extended =>
    rw [List.append_nil]
    refine ⟨lines, entry, words, line.tokens, line.entered, line.spelt, line.hasWords,
      fun _ _ place => absurd place Place.insideWord_ne_margin, ?_, ?_⟩
    · intro l inside
      obtain rfl := Place.insideWord.inj inside
      exact (line.reading _ place).extend extended
    · intro faultless
      exact ⟨(line.whole faultless).1, fun outside => absurd rfl (outside _)⟩

/-- The numbers of open blocks and open brackets are those of the tokens that are settled. -/
structure Counts (s : Scan) (ts : List Token) : Prop where
  nesting : s.nesting = openBrackets ts
  blocks : indents ts = outdents ts + s.blocks.length
  unbracketed : Unbracketed ts
  balanced : Balanced ts
  margin : ∀ start width, s.place = .margin start width → s.nesting = 0

variable {ts : List Token}

theorem Counts.settleWord {l : Lexeme} (counts : s.Counts ts) (place : s.place = .insideWord l)
    (spelt : l.IsSpelt) : s.settleWord.1.Counts (ts ++ tokensOf s.settleWord.2) := by
  rw [settleWord_of_insideWord place]
  have words : ∀ t ∈ tokensOf (l.settle s.next), t.kind.isLayout = false := by
    rcases Lexeme.settle_cases spelt s.next with ⟨-, words⟩ | ⟨none, -⟩
    · exact words
    · rw [none]
      exact List.forall_mem_nil _
  have opens := indents_of_words words
  have closes := outdents_of_words words
  have blocks := counts.blocks
  refine ⟨?_, ?_, counts.unbracketed.append_words words, counts.balanced.append ?_, nofun⟩
  · simp only [nesting_foldl_note, openBrackets_append, counts.nesting]
  · simp only [indents_append, outdents_append, blocks_foldl_note]
    omega
  · rw [closes]
    omega

theorem Counts.consume {c : Char} {after : Scan} {new : List Piece} (counts : s.Counts ts)
    (consumed : Consumes c s after new) : after.Counts (ts ++ tokensOf new) := by
  have same : ts ++ tokensOf [] = ts := List.append_nil ts
  have blocks := counts.blocks
  cases consumed with
  | pass outside passes =>
    rw [same]
    refine ⟨counts.nesting, blocks, counts.unbracketed, counts.balanced, ?_⟩
    rcases passes.quiet with rfl | rfl <;> exact nofun
  | widen place =>
    rw [same]
    exact ⟨counts.nesting, blocks, counts.unbracketed, counts.balanced,
      fun _ _ _ => counts.margin _ _ place⟩
  | endLine outside feed unbracketed =>
    have outside : openBrackets ts = 0 := counts.nesting ▸ unbracketed
    have newline : ∀ t ∈ tokensOf s.lineEnd, t.kind = .newline := by
      unfold lineEnd
      split
      · intro t member
        obtain rfl := List.mem_singleton.1 member
        rfl
      · exact List.forall_mem_nil _
    have opens : indents (tokensOf s.lineEnd) = 0 :=
      indents_eq_zero fun t member => by simp [newline t member]
    have closes : outdents (tokensOf s.lineEnd) = 0 :=
      outdents_eq_zero fun t member => by simp [newline t member]
    have layout : ∀ t ∈ tokensOf s.lineEnd, t.kind.isLayout = true :=
      fun t member => by simp [newline t member, TokenKind.isLayout]
    refine ⟨?_, ?_, counts.unbracketed.append_layout outside layout, ?_, fun _ _ _ => unbracketed⟩
    · rw [openBrackets_append_layout layout]
      exact counts.nesting
    · simp only [indents_append, outdents_append]
      omega
    · exact counts.balanced.append (by omega)
  | begin =>
    rw [same]
    exact ⟨counts.nesting, blocks, counts.unbracketed, counts.balanced,
      fun _ _ place => absurd place Place.insideWord_ne_margin⟩
  | @enter start width place opens =>
    have outside : openBrackets ts = 0 := counts.nesting ▸ counts.margin _ _ place
    rcases s.enterLine_cases ⟨start, s.next⟩ width with ⟨-, entered, tokens⟩ | ⟨-, entered, tokens⟩
    · rw [entered, tokens]
      have layout : ∀ t ∈ [Token.silent .indent ⟨start, s.next⟩], t.kind.isLayout = true := by
        simp [Token.silent, TokenKind.isLayout]
      have opens : indents [.silent .indent ⟨start, s.next⟩] = 1 := rfl
      have closes : outdents [.silent .indent ⟨start, s.next⟩] = 0 := rfl
      refine ⟨?_, ?_, counts.unbracketed.append_layout outside layout,
        counts.balanced.append ?_,
        fun _ _ place => absurd place Place.insideWord_ne_margin⟩
      · rw [openBrackets_append_layout layout]
        exact counts.nesting
      · simp only [indents_append, outdents_append, opens, closes, List.length_cons]
        omega
      · rw [closes]
        omega
    · rw [entered, tokens]
      generalize made : List.replicate (s.blocks.takeWhile (width < ·)).length
        (Token.silent .outdent ⟨start, s.next⟩) = closed
      have all : ∀ t ∈ closed, t.kind = .outdent := by
        intro t member
        rw [← made] at member
        rw [List.eq_of_mem_replicate member]
        rfl
      have opens := indents_of_outdents all
      have closes := outdents_eq_length all
      have layout := isLayout_of_outdents all
      have split := congrArg List.length
        (List.takeWhile_append_dropWhile (p := (width < ·)) (l := s.blocks))
      rw [List.length_append] at split
      rw [← made, List.length_replicate, made] at closes
      refine ⟨?_, ?_, counts.unbracketed.append_layout outside layout, ?_,
        fun _ _ place => absurd place Place.insideWord_ne_margin⟩
      · rw [openBrackets_append_layout layout]
        exact counts.nesting
      · simp only [indents_append, outdents_append]
        omega
      · exact counts.balanced.append (by omega)
  | extend =>
    rw [same]
    exact ⟨counts.nesting, blocks, counts.unbracketed, counts.balanced,
      fun _ _ place => absurd place Place.insideWord_ne_margin⟩

/-- What a scan gives when the text ends: the end of its line, the open blocks and the end. -/
theorem tokensOf_ending (s : Scan) :
    ∃ newline closing stop, tokensOf s.ending = newline ++ (closing ++ [stop]) ∧
      (s.hasWords = false ∧ newline = [] ∨
        s.hasWords = true ∧ ∃ t, newline = [t] ∧ t.kind = .newline) ∧
      (∀ t ∈ closing, t.kind = .outdent) ∧ closing.length = s.blocks.length ∧
      stop.kind = .eof := by
  refine ⟨if s.hasWords then [.silent .newline (.point s.next)] else [],
    List.replicate s.blocks.length (.silent .outdent (.point s.next)),
    .silent .eof (.point s.next), ?_, ?_, ?_, List.length_replicate, rfl⟩
  · rw [ending, List.append_assoc, tokensOf_append, tokensOf_append, List.map_const']
    congr 1
    · split <;> rfl
    · congr 1
      rw [tokensOf, List.filterMap_replicate_of_some (show Piece.token? (.token _) = _ from rfl)]
  · cases s.hasWords with
    | false => exact .inl ⟨rfl, rfl⟩
    | true => exact .inr ⟨rfl, _, rfl, rfl⟩
  · intro t member
    rw [List.eq_of_mem_replicate member]
    rfl

end Scan

namespace Scan

/-- What is settled is lines and the beginning of one more, and the numbers of open blocks and
    brackets fit. -/
def InLines (s : Scan) (ps : List Piece) : Prop :=
  ∃ lines entry words, s.OnLine ps lines entry words ∧ s.Counts (tokensOf ps)

theorem inLines_initial : initial.InLines [] := by
  have counts : initial.Counts (tokensOf []) := by
    refine ⟨rfl, rfl, ?_, ?_, fun _ _ _ => rfl⟩
    · intro before t after split
      simp [tokensOf] at split
    · intro before first
      rw [List.prefix_nil.1 first]
      exact Nat.le_refl _
  refine ⟨[], [], [], ?_, counts⟩
  refine ⟨rfl, .inr (List.forall_mem_nil _), List.forall_mem_nil _, rfl, fun _ _ _ => ⟨rfl, rfl⟩,
    (outside_of_margin rfl).elim, ?_⟩
  exact fun _ => ⟨List.forall_mem_nil _, fun _ some => absurd rfl some⟩

theorem InLines.settleWord (s : Scan) (l : Lexeme) (ps : List Piece)
    (place : s.place = .insideWord l) :
    s.InLines ps → s.settleWord.1.InLines (ps ++ s.settleWord.2) := by
  rintro ⟨lines, entry, words, line, counts⟩
  obtain ⟨words', line'⟩ := line.settleWord place
  refine ⟨lines, entry, words', line', ?_⟩
  rw [tokensOf_append]
  exact counts.settleWord place (line.reading l place)

theorem InLines.consume (c : Char) (s after : Scan) (new ps : List Piece)
    (consumed : Consumes c s after new) : s.InLines ps → after.InLines (ps ++ new) := by
  rintro ⟨lines, entry, words, line, counts⟩
  obtain ⟨lines', entry', words', line'⟩ := line.consume consumed
  refine ⟨lines', entry', words', line', ?_⟩
  rw [tokensOf_append]
  exact counts.consume consumed

theorem inLines_read (cs : List Char) : (initial.read cs).1.InLines (initial.read cs).2 :=
  read_rule (step_rule InLines.settleWord InLines.consume) inLines_initial cs

end Scan

/-- A text is read into lines and the numbers of its open blocks and brackets fit. -/
theorem exists_lines (source : String) : ∃ (s : Scan) (ps : List Piece) (lines : List LogicalLine)
    (entry words : List Token),
    s.Outside ∧ s.OnLine ps lines entry words ∧ s.Counts (tokensOf ps) ∧
      pieces source = ps ++ s.ending := by
  obtain ⟨s, ps, outside, ⟨lines, entry, words, line, counts⟩, all⟩ :=
    pieces_rule Scan.InLines.settleWord Scan.InLines.consume Scan.inLines_initial source
  exact ⟨s, ps, lines, entry, words, outside, line, counts, all⟩

/-- The tokens of a text are lines and then the end; where nothing was reported each line holds
    words. -/
theorem exists_layout (source : String) : ∃ layout : Layout, (lex source).tokens = layout.tokens ∧
    ((lex source).diagnostics = [] → ∀ line ∈ layout.lines, line.words ≠ []) := by
  obtain ⟨s, ps, lines, entry, words, outside, line, -, all⟩ := exists_lines source
  obtain ⟨newline, closing, stop, tokens, ends, closes, -, stops⟩ := s.tokensOf_ending
  have stopped : words = [] ∧ newline = [] ∨
      words ≠ [] ∧ ∃ t, newline = [t] ∧ t.kind = .newline := by
    have hasWords := line.hasWords
    rcases ends with ⟨without, none⟩ | ⟨holds, some⟩
    · left
      rw [without] at hasWords
      exact ⟨by simpa using hasWords.symm, none⟩
    · right
      rw [holds] at hasWords
      exact ⟨by simpa using hasWords.symm, some⟩
  obtain ⟨lines', lineTokens, whole⟩ := line.close stopped
  refine ⟨⟨lines', closing, stop, closes, stops⟩, ?_, ?_⟩
  · change tokensOf (pieces source) = lines'.flatMap _ ++ (closing ++ [stop])
    rw [all, tokensOf_append, tokens, lineTokens, List.append_assoc]
  · intro faultless
    rw [diagnostics_lex, all, faultsOf_append] at faultless
    exact whole (List.append_eq_nil_iff.1 faultless).1 outside

/-- In front of every token of a text no more blocks have been closed than opened, and in the end
    as many. -/
theorem balanced_lex (source : String) : Balanced (lex source).tokens ∧
    outdents (lex source).tokens = indents (lex source).tokens := by
  obtain ⟨s, ps, lines, entry, words, -, -, counts, all⟩ := exists_lines source
  obtain ⟨newline, closing, stop, ending, ends, closes, count, stops⟩ := s.tokensOf_ending
  have tokens : (lex source).tokens = tokensOf ps ++ (newline ++ (closing ++ [stop])) := by
    rw [← ending, ← tokensOf_append, ← all]
    rfl
  have blocks := counts.blocks
  have newlines : ∀ t ∈ newline, t.kind = .newline := by
    rcases ends with ⟨-, rfl⟩ | ⟨-, t, rfl, kind⟩
    · exact List.forall_mem_nil _
    · simpa using kind
  have opens : indents (newline ++ (closing ++ [stop])) = 0 := by
    rw [indents_append, indents_append, indents_of_outdents closes,
      indents_eq_zero fun t member => by simp [newlines t member]]
    simp [indents, stops]
  have closed : outdents (newline ++ (closing ++ [stop])) = s.blocks.length := by
    rw [outdents_append, outdents_append, outdents_eq_length closes, count,
      outdents_eq_zero fun t member => by simp [newlines t member]]
    simp [outdents, stops]
  rw [tokens]
  refine ⟨counts.balanced.append (by omega), ?_⟩
  rw [indents_append, outdents_append]
  omega

/-- The tokens of every text are well laid out, and where nothing was reported each block opens at
    the beginning of a line and in front of a word. -/
theorem isLaidOut_lex (source : String) : IsLaidOut (lex source).tokens ∧
    ((lex source).diagnostics = [] → OpensTidily (lex source).tokens) := by
  obtain ⟨layout, laid, filled⟩ := exists_layout source
  obtain ⟨s, ps, lines, entry, words, -, -, counts, all⟩ := exists_lines source
  obtain ⟨newline, closing, stop, ending, ends, closes, count, stops⟩ := s.tokensOf_ending
  have tokens : (lex source).tokens = tokensOf ps ++ (newline ++ (closing ++ [stop])) := by
    rw [← ending, ← tokensOf_append, ← all]
    rfl
  obtain ⟨balanced, closed⟩ := balanced_lex source
  refine ⟨⟨⟨layout, laid⟩, ?_, ?_, ?_, balanced, closed, ?_⟩, ?_⟩
  · obtain ⟨before, split, others⟩ := layout.stop_tokens
    exact ⟨before, layout.stop, laid.trans split, layout.stops, others⟩
  · intro before t after split kind
    exact layout.newline_tokens (laid.symm.trans split) kind
  · intro before word t after split spelt
    exact layout.word_tokens (laid.symm.trans split) spelt
  · intro before t after split layout inside
    rw [tokens] at split
    rcases split_append split with ⟨more, left, -⟩ | ⟨more, -, right⟩
    · exact absurd (counts.unbracketed before t more left layout) inside
    · have kinds : (more ++ t :: after).map (·.kind) =
          newline.map (·.kind) ++ (List.replicate s.blocks.length .outdent ++ [.eof]) := by
        have outdents' : closing.map (·.kind) = List.replicate s.blocks.length .outdent := by
          rw [← count]
          exact List.map_eq_replicate_iff.2 closes
        rw [← right, List.map_append, List.map_append, outdents', List.map_singleton, stops]
      rcases ends with ⟨-, rfl⟩ | ⟨-, u, rfl, kind⟩
      · refine ⟨.newline :: more.map (·.kind), s.blocks.length, ?_⟩
        rw [List.cons_append, ← List.map_append, kinds]
        rfl
      · refine ⟨more.map (·.kind), s.blocks.length, ?_⟩
        rw [← List.map_append, kinds, List.map_singleton, kind]
        rfl
  · intro faultless before t after split kind
    exact layout.indent_tokens (filled faultless) (laid.symm.trans split) kind

theorem opensTidily_block : (lex "if a\n  b\n").diagnostics = [] ∧
    OpensTidily (lex "if a\n  b\n").tokens := by
  have faultless : (lex "if a\n  b\n").diagnostics = [] := by decide +kernel
  exact ⟨faultless, (isLaidOut_lex "if a\n  b\n").2 faultless⟩

end TekLang
