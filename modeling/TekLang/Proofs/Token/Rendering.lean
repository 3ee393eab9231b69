import TekLang.Proofs.Token.Words

/-!
# Tokens as text

The tokens of a text that was read without a report can be written as a text again: every line on
one line of its own, two blanks for each open block, single blanks between the words. Reading that
text gives the tokens back. Only what a token is and how it is spelt is regained, not where it
stood.
-/

namespace TekLang

/-- The text of tokens in `depth` open blocks; `fresh` tells whether a line begins. -/
def renderFrom (depth : Nat) (fresh : Bool) : List Token → List Char
  | [] => []
  | t :: ts =>
    match t.kind with
    | .indent => renderFrom (depth + 1) fresh ts
    | .outdent => renderFrom (depth - 1) fresh ts
    | .newline => '\n' :: renderFrom depth true ts
    | .eof => renderFrom depth fresh ts
    | _ =>
      (if fresh then List.replicate (2 * depth) ' ' else [' ']) ++
        (t.lexeme.toList ++ renderFrom depth false ts)

/-- Tokens as a text: each line on a line of its own, two blanks for each block that is open there,
    the words with single blanks between them and a line feed behind them. -/
def rendered (ts : List Token) : String := String.ofList (renderFrom 0 true ts)

/-! ## The text of a line -/

theorem renderFrom_word (depth : Nat) (fresh : Bool) {t : Token} (ts : List Token)
    (word : t.kind.isLayout = false) :
    renderFrom depth fresh (t :: ts) =
      (if fresh then List.replicate (2 * depth) ' ' else [' ']) ++
        (t.lexeme.toList ++ renderFrom depth false ts) := by
  rw [renderFrom]
  split <;> simp_all [TokenKind.isLayout]

theorem renderFrom_words (depth : Nat) {words : List Token}
    (spelt : ∀ t ∈ words, t.kind.isLayout = false) (ts : List Token) :
    renderFrom depth false (words ++ ts) =
      words.flatMap (' ' :: ·.lexeme.toList) ++ renderFrom depth false ts := by
  induction words with
  | nil => rfl
  | cons w words ih =>
    rw [List.cons_append, renderFrom_word depth false _ (spelt w List.mem_cons_self),
      ih fun t member => spelt t (List.mem_cons_of_mem _ member)]
    simp

theorem renderFrom_newline (depth : Nat) (fresh : Bool) {t : Token} (ts : List Token)
    (newline : t.kind = .newline) :
    renderFrom depth fresh (t :: ts) = '\n' :: renderFrom depth true ts := by
  rw [renderFrom, newline]

theorem renderFrom_outdents (depth : Nat) (fresh : Bool) {closing : List Token}
    (closes : ∀ t ∈ closing, t.kind = .outdent) (ts : List Token) :
    renderFrom depth fresh (closing ++ ts) = renderFrom (depth - closing.length) fresh ts := by
  induction closing generalizing depth with
  | nil => rfl
  | cons t closing ih =>
    rw [List.cons_append, renderFrom, closes t List.mem_cons_self, List.length_cons]
    change renderFrom (depth - 1) fresh (closing ++ ts) = _
    rw [ih _ fun u member => closes u (List.mem_cons_of_mem _ member), Nat.sub_sub, Nat.add_comm 1]

theorem renderFrom_entry (depth : Nat) (fresh : Bool) {entry : List Token} (entered : IsEntry entry)
    (ts : List Token) :
    renderFrom depth fresh (entry ++ ts) =
      renderFrom (depth + indents entry - outdents entry) fresh ts := by
  rcases entered with ⟨t, rfl, kind⟩ | closes
  · rw [List.singleton_append, renderFrom, kind]
    simp [indents, outdents, kind]
  · rw [renderFrom_outdents depth fresh closes, indents_of_outdents closes,
      outdents_eq_length closes, Nat.add_zero]

/-- The text of a line in `depth` open blocks, as far as its last word. -/
def lineText (depth : Nat) : List Token → List Char
  | [] => []
  | w :: words =>
    List.replicate (2 * depth) ' ' ++ (w.lexeme.toList ++ words.flatMap (' ' :: ·.lexeme.toList))

theorem renderFrom_line (depth : Nat) {entry words : List Token} (entered : IsEntry entry)
    (some : words ≠ []) (spelt : ∀ t ∈ words, t.kind.isLayout = false) (ts : List Token) :
    renderFrom depth true (entry ++ words ++ ts) =
      lineText (depth + indents entry - outdents entry) words ++
        renderFrom (depth + indents entry - outdents entry) false ts := by
  rw [List.append_assoc, renderFrom_entry depth true entered]
  cases words with
  | nil => exact absurd rfl some
  | cons w words =>
    rw [List.cons_append, renderFrom_word _ true _ (spelt w List.mem_cons_self),
      renderFrom_words _ fun t member => spelt t (List.mem_cons_of_mem _ member)]
    simp [lineText]

namespace Scan

/-- The widths of `depth` open blocks, each two wider than the one around it. -/
def widths : Nat → List Nat
  | 0 => []
  | depth + 1 => 2 * (depth + 1) :: widths depth

/-- The scan stands at the beginning of a line, in `depth` open blocks. -/
structure AtLine (s : Scan) (depth : Nat) : Prop where
  place : ∃ start, s.place = .margin start 0
  blocks : s.blocks = widths depth
  nesting : s.nesting = 0
  hasWords : s.hasWords = false

variable {s : Scan}

theorem reads_blanks {start : Position} {width : Nat} (place : s.place = .margin start width)
    (count : Nat) : ∃ next,
      s.Reads (List.replicate count ' ')
        { s with place := .margin start (width + count), next } [] := by
  induction count generalizing s width with
  | zero =>
    refine ⟨s.next, ?_⟩
    rw [Nat.add_zero, ← place]
    exact reads_nil s
  | succ count ih =>
    have blank :
        s.Reads [' '] { s with place := .margin start (width + 1), next := s.next.after ' ' }
        [] := by
      simp [Reads, read, step, take, place, stepMargin]
    let after : Scan := { s with place := .margin start (width + 1), next := s.next.after ' ' }
    obtain ⟨next, rest⟩ := ih (s := after) rfl
    refine ⟨next, ?_⟩
    rw [show width + (count + 1) = width + 1 + count by omega]
    exact blank.append rest

theorem blockWidth_widths {depth : Nat} (blocks : s.blocks = widths depth) :
    s.blockWidth = 2 * depth := by
  rw [blockWidth, blocks]
  cases depth <;> rfl

theorem dropWhile_widths (depth closed : Nat) :
    (widths (depth + closed)).dropWhile (2 * depth < ·) = widths depth ∧
      ((widths (depth + closed)).takeWhile (2 * depth < ·)).length = closed := by
  induction closed with
  | zero => cases depth <;> simp [widths]
  | succ closed ih =>
    have wider : 2 * depth < 2 * (depth + closed + 1) := by omega
    rw [← Nat.add_assoc, widths, List.dropWhile_cons_of_pos (by simp [wider]),
      List.takeWhile_cons_of_pos (by simp [wider]), List.length_cons]
    exact ⟨ih.1, by rw [ih.2]⟩

theorem head_widths (depth : Nat) : (widths depth).headD 0 = 2 * depth := by
  cases depth <;> rfl

/-- A line that stands two blanks in for each open block opens and closes the blocks it should. -/
theorem enterLine_widths {depth : Nat} (blocks : s.blocks = widths depth) {entry : List Token}
    (entered : IsEntry entry) (room : outdents entry ≤ depth + indents entry) (span : Span) :
    (s.enterLine span (2 * (depth + indents entry - outdents entry))).1 =
        { s with blocks := widths (depth + indents entry - outdents entry) } ∧
      facesOf (s.enterLine span (2 * (depth + indents entry - outdents entry))).2 =
        entry.map Token.face ∧
      faultsOf (s.enterLine span (2 * (depth + indents entry - outdents entry))).2 = [] := by
  rcases entered with ⟨t, rfl, kind⟩ | closes
  · have opens : indents [t] = 1 := by simp [indents, kind]
    have keeps : outdents [t] = 0 := by simp [outdents, kind]
    have deeper : s.blockWidth < 2 * (depth + 1) := by
      rw [blockWidth_widths blocks]
      omega
    rw [opens, keeps, Nat.sub_zero, enterLine, if_pos deeper, blocks]
    refine ⟨rfl, ?_, rfl⟩
    simp [facesOf, tokensOf, Piece.token?, Token.face, Token.silent, kind, TokenKind.isLayout]
  · rw [indents_of_outdents closes, Nat.add_zero] at room
    obtain ⟨kept, rfl⟩ := Nat.exists_eq_add_of_le' room
    have length := outdents_eq_length closes
    obtain ⟨keeps, drops⟩ := dropWhile_widths kept (outdents entry)
    have wide : ¬s.blockWidth < 2 * kept := by
      rw [blockWidth_widths blocks]
      omega
    rw [indents_of_outdents closes, Nat.add_zero, Nat.add_sub_cancel, enterLine, if_neg wide,
      blocks]
    rw [keeps]
    dsimp only
    rw [List.map_const', drops, head_widths, if_pos rfl, List.append_nil]
    refine ⟨rfl, ?_, ?_⟩
    · have faces : entry.map Token.face = List.replicate entry.length (.outdent, none) := by
        refine List.map_eq_replicate_iff.2 ?_
        intro t member
        simp [Token.face, closes t member, TokenKind.isLayout]
      rw [facesOf, tokensOf, List.filterMap_replicate_of_some
        (show Piece.token? (.token _) = _ from rfl), List.map_replicate, faces, length]
      rfl
    · rw [faultsOf, List.filterMap_replicate_of_none rfl]

/-- A line is read as far as its last word. -/
theorem reads_line {depth : Nat} (atLine : s.AtLine depth) {entry words : List Token}
    (entered : IsEntry entry) (room : outdents entry ≤ depth + indents entry) (some : words ≠ [])
    (readable : ∀ u ∈ words, u.IsReadable) : ∃ after ps last,
      s.Reads (lineText (depth + indents entry - outdents entry) words) after ps ∧
        after.Pends last ∧ facesOf ps ++ [last.face] = (entry ++ words).map Token.face ∧
        faultsOf ps = [] ∧ after.blocks = widths (depth + indents entry - outdents entry) ∧
        nestingAfter after.nesting last.kind = openBrackets words := by
  cases words with
  | nil => exact absurd rfl some
  | cons w words =>
    obtain ⟨start, place⟩ := atLine.place
    obtain ⟨next, blanks⟩ := reads_blanks place (2 * (depth + indents entry - outdents entry))
    rw [Nat.zero_add] at blanks
    obtain ⟨middle, span, first, pends, blocks, nesting⟩ :=
      reads_first (s := { s with
        place := .margin start (2 * (depth + indents entry - outdents entry)), next }) rfl
        (readable w List.mem_cons_self)
    obtain ⟨entered', faces, faults⟩ := enterLine_widths (s := { s with
        place := .margin start (2 * (depth + indents entry - outdents entry)), next })
      atLine.blocks entered room span
    rw [entered'] at blocks nesting
    obtain ⟨after, ps, last, rest, pends', faces', faults', blocks', nesting'⟩ :=
      reads_behind (.of_blanks fun u member => readable u (List.mem_cons_of_mem _ member)) pends
    refine ⟨after, _, last, blanks.append (first.append rest), pends', ?_, ?_,
      blocks'.trans blocks, ?_⟩
    · rw [List.nil_append, facesOf_append, faces, List.append_assoc, faces', List.map_append]
    · rw [List.nil_append, faultsOf_append, faults, faults']
      rfl
    · rw [nesting', nesting]
      simp only [atLine.nesting]
      rfl

/-- A line feed ends the last word, and the line where no bracket is open. -/
theorem reads_feed {t : Token} (pends : s.Pends t) : ∃ after ps, s.Reads ['\n'] after ps ∧
    faultsOf ps = [] ∧ after.blocks = s.blocks ∧
      (nestingAfter s.nesting t.kind = 0 ∧ facesOf ps = [t.face, (.newline, none)] ∧
          (∃ start, after.place = .margin start 0) ∧ after.nesting = 0 ∧ after.hasWords = false ∨
        0 < nestingAfter s.nesting t.kind ∧ facesOf ps = [t.face] ∧ after.Outside ∧
          after.hasWords = true) := by
  obtain ⟨span, settled⟩ := settleWord_of_pends pends
  have whole := s.reads_single '\n'
  rw [step_feed, settled] at whole
  by_cases bracketed : 0 < nestingAfter s.nesting t.kind
  · simp only [breakLine, afterWord, if_pos bracketed] at whole
    exact ⟨_, _, whole, rfl, rfl, .inr ⟨bracketed, rfl, outside_of_betweenWords rfl, rfl⟩⟩
  · simp only [breakLine, afterWord, if_neg bracketed, if_true] at whole
    have flat : nestingAfter s.nesting t.kind = 0 := by omega
    exact ⟨_, _, whole, rfl, rfl, .inl ⟨flat, rfl, ⟨_, rfl⟩, flat, rfl⟩⟩

end Scan

theorem LogicalLine.counts (line : LogicalLine) : indents line.tokens = indents line.entry ∧
    outdents line.tokens = outdents line.entry ∧
      openBrackets line.tokens = openBrackets line.words := by
  have newlines := line.kind_of_mem_stop
  have opens : indents line.stop = 0 := indents_eq_zero fun t member => by simp [newlines t member]
  have closes : outdents line.stop = 0 :=
    outdents_eq_zero fun t member => by simp [newlines t member]
  have layout : ∀ t ∈ line.stop, t.kind.isLayout = true :=
    fun t member => by simp [newlines t member, TokenKind.isLayout]
  have entry : openBrackets line.entry = 0 := by
    have none := @openBrackets_append_layout [] line.entry fun t member =>
      (line.isLayout_of_mem_entry t member).1
    rwa [List.nil_append] at none
  unfold tokens
  refine ⟨?_, ?_, ?_⟩
  · rw [indents_append, indents_append, indents_of_words line.spelt, opens]
    omega
  · rw [outdents_append, outdents_append, outdents_of_words line.spelt, closes]
    omega
  · rw [openBrackets_append_layout layout, openBrackets_append, entry]
    rfl

namespace Scan

variable {s : Scan}

/-- Lines that hold words are read one by one, as long as none of them ends between brackets. -/
theorem reads_lines {lines : List LogicalLine} {depth : Nat} (atLine : s.AtLine depth)
    (filled : ∀ line ∈ lines, line.words ≠ [])
    (readable : ∀ line ∈ lines, ∀ t ∈ line.words, t.IsReadable)
    (room : ∀ before, before <+: lines.flatMap LogicalLine.tokens →
      outdents before ≤ depth + indents before)
    (unbracketed : Unbracketed (lines.flatMap LogicalLine.tokens)) : ∃ text after ps reached,
      (∀ rest, renderFrom depth true (lines.flatMap LogicalLine.tokens ++ rest) =
        text ++ renderFrom reached true rest) ∧
      s.Reads text after ps ∧ after.AtLine reached ∧
      facesOf ps = (lines.flatMap LogicalLine.tokens).map Token.face ∧ faultsOf ps = [] ∧
      reached + outdents (lines.flatMap LogicalLine.tokens) =
        depth + indents (lines.flatMap LogicalLine.tokens) := by
  induction lines generalizing s depth with
  | nil => exact ⟨[], s, [], depth, fun _ => rfl, reads_nil s, atLine, rfl, rfl, rfl⟩
  | cons line lines ih =>
    obtain ⟨opens, closes, brackets⟩ := line.counts
    obtain ⟨-, stop, single, kind⟩ := line.stopped.resolve_left fun without =>
      filled line List.mem_cons_self without.1
    rw [List.flatMap_cons] at room unbracketed ⊢
    have roomLine := room line.tokens (List.prefix_append _ _)
    rw [opens, closes] at roomLine
    have flat : openBrackets line.words = 0 := by
      rw [← brackets]
      have before := unbracketed (line.entry ++ line.words) stop
        (lines.flatMap LogicalLine.tokens) (by simp [LogicalLine.tokens, single])
        (by simp [kind, TokenKind.isLayout])
      rw [LogicalLine.tokens, single,
        openBrackets_append_layout (by simp [kind, TokenKind.isLayout])]
      exact before
    obtain ⟨middle, ps, last, first, pends, faces, faults, blocks, nesting⟩ :=
      reads_line atLine line.entered roomLine (filled line List.mem_cons_self)
        (readable line List.mem_cons_self)
    obtain ⟨next, qs, feed, faults', blocks', ends⟩ := reads_feed pends
    have closed : ¬0 < nestingAfter middle.nesting last.kind := by omega
    obtain ⟨-, faces', place, nesting', hasWords⟩ := ends.resolve_right fun open' => closed open'.1
    have atNext : next.AtLine (depth + indents line.entry - outdents line.entry) :=
      ⟨place, blocks'.trans blocks, nesting', hasWords⟩
    have roomNext : ∀ before, before <+: lines.flatMap LogicalLine.tokens →
        outdents before ≤ depth + indents line.entry - outdents line.entry + indents before := by
      intro before within
      have whole := room (line.tokens ++ before) ((List.prefix_append_right_inj _).2 within)
      rw [outdents_append, indents_append, opens, closes] at whole
      omega
    have unbracketedNext : Unbracketed (lines.flatMap LogicalLine.tokens) := by
      intro before t behind split layout
      have whole := unbracketed (line.tokens ++ before) t behind (by simp [split]) layout
      rw [openBrackets_append, brackets, flat] at whole
      exact whole
    obtain ⟨text, after, rs, reached, rendered, rest, atLine', faces'', faults'', sum⟩ :=
      ih atNext (fun line member => filled line (List.mem_cons_of_mem _ member))
        (fun line member => readable line (List.mem_cons_of_mem _ member)) roomNext unbracketedNext
    refine ⟨lineText (depth + indents line.entry - outdents line.entry) line.words ++
      ('\n' :: text), after, ps ++ (qs ++ rs), reached, ?_, ?_, atLine', ?_, ?_, ?_⟩
    · intro others
      rw [LogicalLine.tokens, single, List.append_assoc, List.append_assoc,
        renderFrom_line depth line.entered (filled line List.mem_cons_self) line.spelt,
        List.singleton_append, renderFrom_newline _ _ _ kind, rendered]
      simp
    · exact first.append (feed.append rest)
    · rw [facesOf_append, facesOf_append, faces', faces'', List.map_append, LogicalLine.tokens,
        single, List.map_append, ← faces]
      simp [Token.face, kind, TokenKind.isLayout]
    · rw [faultsOf_append, faultsOf_append, faults, faults', faults'']
      rfl
    · rw [outdents_append, indents_append, opens, closes]
      omega

theorem facesOf_ending (s : Scan) : facesOf s.ending =
    (if s.hasWords then [(.newline, none)] else []) ++
      (List.replicate s.blocks.length (.outdent, none) ++ [(.eof, none)]) := by
  obtain ⟨newline, closing, stop, tokens, ends, closes, count, stops⟩ := s.tokensOf_ending
  have closingFaces : closing.map Token.face = List.replicate s.blocks.length (.outdent, none) := by
    rw [← count]
    refine List.map_eq_replicate_iff.2 ?_
    intro t member
    simp [Token.face, closes t member, TokenKind.isLayout]
  have stopFace : stop.face = (.eof, none) := by simp [Token.face, stops, TokenKind.isLayout]
  rw [facesOf, tokens, List.map_append, List.map_append, closingFaces, List.map_singleton, stopFace]
  rcases ends with ⟨without, rfl⟩ | ⟨holds, t, rfl, kind⟩
  · rw [without]
    rfl
  · rw [holds]
    simp [Token.face, kind, TokenKind.isLayout]

theorem faultsOf_ending (s : Scan) : faultsOf s.ending = [] := by
  rw [ending, List.map_const', faultsOf_append, faultsOf_append]
  have outdents : faultsOf (List.replicate s.blocks.length
      (.token (.silent .outdent (.point s.next)))) = [] :=
    List.filterMap_replicate_of_none rfl
  rw [outdents]
  cases s.hasWords <;> rfl

theorem renderFrom_ending (s : Scan) (depth : Nat) (fresh : Bool) :
    renderFrom depth fresh (tokensOf s.ending) = if s.hasWords then ['\n'] else [] := by
  obtain ⟨newline, closing, stop, tokens, ends, closes, -, stops⟩ := s.tokensOf_ending
  have silent (depth : Nat) (fresh : Bool) : renderFrom depth fresh (closing ++ [stop]) = [] := by
    rw [renderFrom_outdents depth fresh closes, renderFrom, stops]
    rfl
  rw [tokens]
  rcases ends with ⟨without, rfl⟩ | ⟨holds, t, rfl, kind⟩
  · rw [List.nil_append, silent, without]
    rfl
  · rw [List.singleton_append, renderFrom_newline _ _ _ kind, silent, holds]
    rfl

theorem finish_of_outside (outside : s.Outside) : s.finish = s.ending := by
  rw [finish_eq, settleWord_of_outside outside]
  rfl

theorem length_widths (depth : Nat) : (widths depth).length = depth := by
  induction depth with
  | zero => rfl
  | succ depth ih => rw [widths, List.length_cons, ih]

end Scan

theorem Unbracketed.left {ts us : List Token} (unbracketed : Unbracketed (ts ++ us)) :
    Unbracketed ts := by
  intro before t after split layout
  exact unbracketed before t (after ++ us) (by simp [split]) layout

/-- The text of tokens that were read without a report is read without a report, into tokens with
    the same faces. -/
theorem facesOf_rendered (source : String) (faultless : (lex source).diagnostics = []) :
    facesOf (pieces (rendered (lex source).tokens)) = (lex source).tokens.map Token.face ∧
      faultsOf (pieces (rendered (lex source).tokens)) = [] := by
  obtain ⟨s, ps, lines, entry, words, outside, line, counts, all⟩ := exists_lines source
  have tokens : (lex source).tokens =
      lines.flatMap LogicalLine.tokens ++ (entry ++ words ++ tokensOf s.ending) := by
    rw [← List.append_assoc, ← line.tokens, ← tokensOf_append, ← all]
    rfl
  have faults : faultsOf ps ++ faultsOf s.ending = [] := by
    rw [← faultsOf_append, ← all]
    exact faultless
  obtain ⟨filled, last⟩ := line.whole (List.append_eq_nil_iff.1 faults).1
  have readable := isReadable_of_mem_lex source
  have counted := counts.blocks
  have balanced := counts.balanced
  have unbracketed := counts.unbracketed
  rw [line.tokens] at counted balanced unbracketed
  have room : ∀ before, before <+: lines.flatMap LogicalLine.tokens →
      outdents before ≤ 0 + indents before := by
    intro before within
    have fits := balanced before (within.trans (List.prefix_append _ _))
    omega
  have readableLines : ∀ line ∈ lines, ∀ t ∈ line.words, t.IsReadable := by
    intro other member t word
    refine readable t (List.mem_filter.2 ⟨?_, by simp [other.spelt t word]⟩)
    rw [tokens]
    refine List.mem_append_left _ (List.mem_flatMap.2 ⟨other, member, ?_⟩)
    exact List.mem_append_left _ (List.mem_append_right _ word)
  have readableWords : ∀ t ∈ words, t.IsReadable := by
    intro t word
    refine readable t (List.mem_filter.2 ⟨?_, by simp [line.spelt t word]⟩)
    simp [tokens, word]
  have start : Scan.initial.AtLine 0 := ⟨⟨_, rfl⟩, rfl, rfl, rfl⟩
  obtain ⟨text, middle, qs, reached, textual, reads, atLine, faces, faultless', sum⟩ :=
    Scan.reads_lines start filled readableLines room unbracketed.left
  have expected : (lex source).tokens.map Token.face =
      facesOf qs ++ ((entry ++ words).map Token.face ++ facesOf s.ending) := by
    rw [tokens, List.map_append, List.map_append, faces]
    rfl
  have canonical : (rendered (lex source).tokens).toList =
      text ++ renderFrom reached true (entry ++ words ++ tokensOf s.ending) := by
    rw [rendered, String.toList_ofList, tokens, textual]
  rw [expected]
  by_cases wordless : words = []
  · -- The last line ended: the text ends at the beginning of a line.
    obtain rfl : entry = [] := not_not.1 fun some => last outside some wordless
    subst wordless
    have hasWords : s.hasWords = false := line.hasWords
    have depth : s.blocks.length = reached := by
      simp only [List.append_nil] at counted
      omega
    rw [List.nil_append, List.nil_append, s.renderFrom_ending, hasWords, if_neg Bool.false_ne_true,
      List.append_nil] at canonical
    obtain ⟨_, place⟩ := atLine.place
    have whole : pieces (rendered (lex source).tokens) = qs ++ middle.ending := by
      rw [Scan.pieces_eq_read, canonical, show Scan.initial.read text = (middle, qs) from reads,
        Scan.finish_of_outside (Scan.outside_of_margin place)]
    rw [whole, facesOf_append, faultsOf_append, faultless', middle.faultsOf_ending,
      middle.facesOf_ending, s.facesOf_ending, atLine.hasWords, hasWords, atLine.blocks,
      Scan.length_widths, depth]
    exact ⟨rfl, rfl⟩
  · have hasWords : s.hasWords = true := by
      rw [line.hasWords]
      simpa using wordless
    simp only [indents_append, outdents_append, indents_of_words line.spelt,
      outdents_of_words line.spelt] at counted
    have roomLine : outdents entry ≤ reached + indents entry := by
      have fits := balanced (lines.flatMap LogicalLine.tokens ++ entry)
        ((List.prefix_append_right_inj _).2 (List.prefix_append _ _))
      rw [indents_append, outdents_append] at fits
      omega
    have depth : s.blocks.length = reached + indents entry - outdents entry := by omega
    obtain ⟨behind, rs, final, readsLine, pends, facesLine, faultsLine, blocks, -⟩ :=
      Scan.reads_line atLine line.entered roomLine wordless readableWords
    obtain ⟨after, us, readsFeed, faultsFeed, blocks', ends⟩ := Scan.reads_feed pends
    rw [renderFrom_line reached line.entered wordless line.spelt, s.renderFrom_ending, hasWords,
      if_pos rfl] at canonical
    have outside : after.Outside := by
      rcases ends with ⟨-, -, ⟨_, place⟩, -⟩ | ⟨-, -, outside, -⟩
      · exact Scan.outside_of_margin place
      · exact outside
    have whole : pieces (rendered (lex source).tokens) = qs ++ (rs ++ us) ++ after.ending := by
      have reads := reads.append (readsLine.append readsFeed)
      unfold Scan.Reads at reads
      rw [Scan.pieces_eq_read, canonical, reads, Scan.finish_of_outside outside]
    have faceEnd : facesOf us ++ facesOf after.ending = [final.face] ++ facesOf s.ending := by
      rw [after.facesOf_ending, s.facesOf_ending, hasWords, blocks', blocks, Scan.length_widths,
        depth]
      rcases ends with ⟨-, faces, -, -, hasWords⟩ | ⟨-, faces, -, hasWords⟩
      · rw [faces, hasWords]
        rfl
      · rw [faces, hasWords]
    rw [whole, facesOf_append, facesOf_append, facesOf_append, List.append_assoc, List.append_assoc,
      faceEnd, ← facesLine, faultsOf_append, faultsOf_append, faultsOf_append, faultless',
      faultsLine, faultsFeed, after.faultsOf_ending]
    exact ⟨by simp, rfl⟩

/-- Reading the text of tokens that were read without a report gives them back. -/
theorem lex_rendered (source : String) (faultless : (lex source).diagnostics = []) :
    (lex (rendered (lex source).tokens)).diagnostics = [] ∧
      (lex (rendered (lex source).tokens)).tokens.map (·.kind) =
        (lex source).tokens.map (·.kind) ∧
      (wordsOf (lex (rendered (lex source).tokens)).tokens).map (·.lexeme) =
        (wordsOf (lex source).tokens).map (·.lexeme) := by
  obtain ⟨faces, faults⟩ := facesOf_rendered source faultless
  rw [facesOf, ← tokens_lex] at faces
  rw [← diagnostics_lex] at faults
  have kinds (ts : List Token) : ts.map (·.kind) = (ts.map Token.face).map (·.1) := by
    simp [Token.face]
  have lexemes (ts : List Token) :
      (wordsOf ts).map (·.lexeme) = (ts.map Token.face).filterMap (·.2) := by
    induction ts with
    | nil => rfl
    | cons t ts ih =>
      cases layout : t.kind.isLayout <;> simp_all [wordsOf, Token.face]
  exact ⟨faults, by rw [kinds, faces, ← kinds], by rw [lexemes, faces, ← lexemes]⟩

theorem lex_rendered_block : (lex "if (a,\n b)\n\tc\n").diagnostics = [] ∧
    (lex (rendered (lex "if (a,\n b)\n\tc\n").tokens)).diagnostics = [] := by
  have faultless : (lex "if (a,\n b)\n\tc\n").diagnostics = [] := by decide +kernel
  exact ⟨faultless, (lex_rendered "if (a,\n b)\n\tc\n" faultless).1⟩

end TekLang
