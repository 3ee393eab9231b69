import Mathlib.Data.List.Chain
import TekLang.Token.Layout

/-!
# The lines of a text

The tokens of a text are lines, one behind another, and then the end. A line is entered with an
indent token or with outdent tokens, if it stands further in or out than the line before; then come
its words, and a newline token behind them. A line can be without words only where its characters
were reported. Blocks that are opened are closed again, and no line ends between brackets unless the
text does. This module says so of a list of tokens; `Scan.OnLine` and `Scan.Counts` carry it through
the characters of a text.
-/

namespace TekLang

/-- How many brackets are open behind tokens. -/
def openBrackets (ts : List Token) : Nat :=
  ts.foldl (fun nesting t => Scan.nestingAfter nesting t.kind) 0

/-- How many blocks are opened by tokens. -/
def indents (ts : List Token) : Nat := ts.countP (·.kind = .indent)

/-- How many blocks are closed by tokens. -/
def outdents (ts : List Token) : Nat := ts.countP (·.kind = .outdent)

/-- The tokens a line is entered with: one that opens a block, or any number that close blocks. -/
def IsEntry (ts : List Token) : Prop :=
  (∃ t, ts = [t] ∧ t.kind = .indent) ∨ ∀ t ∈ ts, t.kind = .outdent

/-- A line of a text, which is not empty. -/
structure LogicalLine where
  entry : List Token
  words : List Token
  /-- The newline token of a line that holds words. -/
  stop : List Token
  entered : IsEntry entry
  spelt : ∀ t ∈ words, t.kind.isLayout = false
  stopped : words = [] ∧ stop = [] ∨ words ≠ [] ∧ ∃ t, stop = [t] ∧ t.kind = .newline
  filled : entry ++ words ≠ []

namespace LogicalLine

def tokens (line : LogicalLine) : List Token := line.entry ++ line.words ++ line.stop

end LogicalLine

/-- The tokens of a whole text: its lines, the blocks that are still open, and the end. -/
structure Layout where
  lines : List LogicalLine
  closing : List Token
  stop : Token
  closes : ∀ t ∈ closing, t.kind = .outdent
  stops : stop.kind = .eof

namespace Layout

def tokens (layout : Layout) : List Token :=
  layout.lines.flatMap LogicalLine.tokens ++ (layout.closing ++ [layout.stop])

end Layout

/-! ## Open brackets -/

theorem openBrackets_append (ts us : List Token) :
    openBrackets (ts ++ us) =
      us.foldl (fun nesting t => Scan.nestingAfter nesting t.kind) (openBrackets ts) :=
  List.foldl_append

/-- Layout opens no bracket and closes none. -/
theorem nestingAfter_of_isLayout {kind : TokenKind} (layout : kind.isLayout = true)
    (nesting : Nat) : Scan.nestingAfter nesting kind = nesting := by
  cases kind <;> first | rfl | cases layout

theorem openBrackets_append_layout {ts us : List Token}
    (layout : ∀ t ∈ us, t.kind.isLayout = true) :
    openBrackets (ts ++ us) = openBrackets ts := by
  rw [openBrackets_append]
  generalize openBrackets ts = nesting
  induction us with
  | nil => rfl
  | cons u us ih =>
    rw [List.foldl_cons, nestingAfter_of_isLayout (layout u List.mem_cons_self)]
    exact ih fun t member => layout t (List.mem_cons_of_mem _ member)

/-- No layout stands between brackets. -/
def Unbracketed (ts : List Token) : Prop :=
  ∀ before t after, ts = before ++ t :: after → t.kind.isLayout = true → openBrackets before = 0

/-- A split of `ts ++ us` at a token splits `ts` or splits `us`. -/
theorem split_append {ts us before after : List Token} {t : Token}
    (split : ts ++ us = before ++ t :: after) :
    (∃ more, ts = before ++ t :: more ∧ after = more ++ us) ∨
      ∃ more, before = ts ++ more ∧ us = more ++ t :: after := by
  rcases List.append_eq_append_iff.1 split with ⟨more, rfl, rest⟩ | ⟨more, rfl, rest⟩
  · exact .inr ⟨more, rfl, rest⟩
  · cases more with
    | nil =>
      refine .inr ⟨[], by simp, ?_⟩
      simpa using rest.symm
    | cons u more =>
      obtain ⟨rfl, rfl⟩ := List.cons_eq_cons.1 rest
      exact .inl ⟨more, rfl, rfl⟩

theorem Unbracketed.append_words {ts us : List Token} (unbracketed : Unbracketed ts)
    (words : ∀ t ∈ us, t.kind.isLayout = false) : Unbracketed (ts ++ us) := by
  intro before t after split layout
  rcases split_append split with ⟨more, left, -⟩ | ⟨more, -, right⟩
  · exact unbracketed before t more left layout
  · have word := words t (by simp [right])
    rw [layout] at word
    cases word

theorem Unbracketed.append_layout {ts us : List Token} (unbracketed : Unbracketed ts)
    (outside : openBrackets ts = 0) (layout : ∀ t ∈ us, t.kind.isLayout = true) :
    Unbracketed (ts ++ us) := by
  intro before t after split isLayout
  rcases split_append split with ⟨more, left, -⟩ | ⟨more, rfl, right⟩
  · exact unbracketed before t more left isLayout
  · rw [openBrackets_append_layout, outside]
    intro u member
    exact layout u (by simp [right, member])

/-! ## Open blocks -/

theorem indents_append (ts us : List Token) : indents (ts ++ us) = indents ts + indents us :=
  List.countP_append

theorem outdents_append (ts us : List Token) : outdents (ts ++ us) = outdents ts + outdents us :=
  List.countP_append

theorem indents_eq_zero {ts : List Token} (other : ∀ t ∈ ts, t.kind ≠ .indent) :
    indents ts = 0 := by
  simpa [indents] using other

theorem outdents_eq_zero {ts : List Token} (other : ∀ t ∈ ts, t.kind ≠ .outdent) :
    outdents ts = 0 := by
  simpa [outdents] using other

theorem outdents_eq_length {ts : List Token} (all : ∀ t ∈ ts, t.kind = .outdent) :
    outdents ts = ts.length := by
  simpa [outdents] using all

theorem indents_of_outdents {ts : List Token} (all : ∀ t ∈ ts, t.kind = .outdent) :
    indents ts = 0 := by
  refine indents_eq_zero ?_
  intro t member
  simp [all t member]

theorem isLayout_of_outdents {ts : List Token} (all : ∀ t ∈ ts, t.kind = .outdent) :
    ∀ t ∈ ts, t.kind.isLayout = true := by
  intro t member
  simp [all t member, TokenKind.isLayout]

theorem indents_of_words {ts : List Token} (words : ∀ t ∈ ts, t.kind.isLayout = false) :
    indents ts = 0 := by
  refine indents_eq_zero ?_
  intro t member kind
  have word := words t member
  rw [kind] at word
  cases word

theorem outdents_of_words {ts : List Token} (words : ∀ t ∈ ts, t.kind.isLayout = false) :
    outdents ts = 0 := by
  refine outdents_eq_zero ?_
  intro t member kind
  have word := words t member
  rw [kind] at word
  cases word

/-- No block is closed that is not open. -/
def Balanced (ts : List Token) : Prop := ∀ before, before <+: ts → outdents before ≤ indents before

theorem outdents_le_of_prefix {ts us : List Token} (first : ts <+: us) :
    outdents ts ≤ outdents us := List.Sublist.countP_le first.sublist

theorem Balanced.append {ts us : List Token} (balanced : Balanced ts)
    (room : outdents ts + outdents us ≤ indents ts) : Balanced (ts ++ us) := by
  intro before first
  rcases List.prefix_or_prefix_of_prefix first (List.prefix_append ts us) with within | ⟨more, rfl⟩
  · exact balanced before within
  · have fewer := outdents_le_of_prefix ((List.prefix_append_right_inj ts).1 first)
    rw [outdents_append, indents_append]
    omega

/-! ## Neighbours -/

theorem isChain_of_forall {R : Token → Token → Prop} {ts : List Token}
    (all : ∀ t ∈ ts, ∀ u ∈ ts, R t u) : ts.IsChain R :=
  (List.pairwise_of_forall_mem_list all).isChain

/-- The second token may stand right behind the first: words are followed by words or by the end of
    their line, which follows nothing else. -/
def Joins (t u : Token) : Prop :=
  (u.kind = .newline → t.kind.isLayout = false) ∧
    (t.kind.isLayout = false → u.kind ≠ .indent ∧ u.kind ≠ .outdent ∧ u.kind ≠ .eof)

/-- The second token may stand right behind the first where nothing was reported: a block opens at
    the beginning of a line, in front of a word. -/
def JoinsTidily (t u : Token) : Prop :=
  (u.kind = .indent → t.kind = .newline) ∧ (t.kind = .indent → u.kind.isLayout = false)

theorem joins_of_layout {t u : Token} (layout : t.kind.isLayout = true)
    (other : u.kind ≠ .newline) :
    Joins t u := by
  refine ⟨fun newline => absurd newline other, ?_⟩
  intro word
  rw [layout] at word
  cases word

theorem joins_of_word {t u : Token} (word : u.kind.isLayout = false) : Joins t u := by
  unfold Joins
  cases kind : u.kind <;> simp_all [TokenKind.isLayout]

namespace LogicalLine

theorem isLayout_of_mem_entry (line : LogicalLine) :
    ∀ t ∈ line.entry, t.kind.isLayout = true ∧ t.kind ≠ .newline ∧ t.kind ≠ .eof := by
  intro t member
  rcases line.entered with ⟨_, entry, kind⟩ | closes
  · rw [entry] at member
    obtain rfl := List.mem_singleton.1 member
    simp [kind, TokenKind.isLayout]
  · simp [closes t member, TokenKind.isLayout]

theorem kind_of_mem_stop (line : LogicalLine) : ∀ t ∈ line.stop, t.kind = .newline := by
  intro t member
  rcases line.stopped with ⟨-, none⟩ | ⟨-, u, stop, kind⟩
  · rw [none] at member
    cases member
  · rw [stop] at member
    obtain rfl := List.mem_singleton.1 member
    exact kind

/-- A line is a chain if what it is entered with is, and words and the end of the line may
    follow. -/
theorem isChain {R : Token → Token → Prop} (line : LogicalLine) (entry : line.entry.IsChain R)
    (words : ∀ t ∈ line.entry ++ line.words, ∀ u ∈ line.words, R t u)
    (stop : ∀ t ∈ line.words, ∀ u ∈ line.stop, R t u) : line.tokens.IsChain R := by
  have inner : ∀ t ∈ line.words, ∀ u ∈ line.words, R t u := by
    intro t left u right
    exact words t (List.mem_append_right _ left) u right
  unfold tokens
  rcases line.stopped with ⟨wordless, unstopped⟩ | ⟨some, newline, single, -⟩
  · rw [wordless, unstopped, List.append_nil, List.append_nil]
    exact entry
  · have body : (line.entry ++ line.words).IsChain R := by
      refine entry.append (isChain_of_forall inner) ?_
      intro t left u right
      exact words t (List.mem_append_left _ (List.mem_of_getLast? left)) u (List.mem_of_head? right)
    rw [single]
    refine body.append (.singleton newline) ?_
    intro t left u right
    rw [List.getLast?_append_of_ne_nil _ some] at left
    exact stop t (List.mem_of_getLast? left) u (single ▸ List.mem_of_head? right)

theorem tokens_ne_nil (line : LogicalLine) : line.tokens ≠ [] :=
  List.append_ne_nil_of_left_ne_nil line.filled _

theorem kind_of_mem_tokens (line : LogicalLine) : ∀ t ∈ line.tokens, t.kind ≠ .eof := by
  intro t member
  rcases List.mem_append.1 member with member | member
  · rcases List.mem_append.1 member with member | member
    · exact (line.isLayout_of_mem_entry t member).2.2
    · intro kind
      have word := line.spelt t member
      rw [kind] at word
      cases word
  · simp [line.kind_of_mem_stop t member]

theorem head_tokens (line : LogicalLine) : ∀ t ∈ line.tokens.head?, t.kind ≠ .newline := by
  intro t first
  unfold tokens at first
  rw [List.head?_append_of_ne_nil _ line.filled] at first
  rcases List.mem_append.1 (List.mem_of_head? first) with member | member
  · exact (line.isLayout_of_mem_entry t member).2.1
  · intro kind
    have word := line.spelt t member
    rw [kind] at word
    cases word

theorem last_tokens (line : LogicalLine) : ∀ t ∈ line.tokens.getLast?,
    t.kind.isLayout = true ∧ (line.words ≠ [] → t.kind = .newline) := by
  intro t last
  unfold tokens at last
  rcases line.stopped with ⟨wordless, unstopped⟩ | ⟨some, newline, single, kind⟩
  · rw [wordless, unstopped, List.append_nil, List.append_nil] at last
    have layout := line.isLayout_of_mem_entry t (List.mem_of_getLast? last)
    exact ⟨layout.1, fun some => absurd wordless some⟩
  · rw [single, List.getLast?_concat] at last
    cases last
    simp [kind, TokenKind.isLayout]

theorem isChain_joins (line : LogicalLine) : line.tokens.IsChain Joins := by
  refine line.isChain (isChain_of_forall ?_) ?_ ?_
  · intro t left u right
    have second := line.isLayout_of_mem_entry u right
    exact joins_of_layout (line.isLayout_of_mem_entry t left).1 second.2.1
  · intro t _ u right
    exact joins_of_word (line.spelt u right)
  · intro t left u right
    simp [Joins, line.spelt t left, line.kind_of_mem_stop u right]

theorem isChain_joinsTidily (line : LogicalLine) : line.tokens.IsChain JoinsTidily := by
  have word (t : Token) (u : Token) (right : u ∈ line.words) : JoinsTidily t u := by
    have spelt := line.spelt u right
    refine ⟨?_, fun _ => spelt⟩
    intro kind
    rw [kind] at spelt
    cases spelt
  refine line.isChain ?_ (fun t _ => word t) ?_
  · rcases line.entered with ⟨t, entry, -⟩ | closes
    · rw [entry]
      exact .singleton t
    · refine isChain_of_forall ?_
      intro t left u right
      simp [JoinsTidily, closes t left, closes u right]
  · intro t left u right
    have spelt := line.spelt t left
    refine ⟨by simp [line.kind_of_mem_stop u right], ?_⟩
    intro kind
    rw [kind] at spelt
    cases spelt

end LogicalLine

namespace Layout

theorem head_tokens (layout : Layout) : ∀ t ∈ layout.tokens.head?, t.kind ≠ .newline := by
  intro t first
  obtain ⟨lines, closing, stop, closes, stops⟩ := layout
  cases lines with
  | nil =>
    have member : t ∈ closing ++ [stop] := List.mem_of_head? first
    rcases List.mem_append.1 member with member | member
    · simp [closes t member]
    · obtain rfl := List.mem_singleton.1 member
      simp [stops]
  | cons line lines =>
    unfold tokens at first
    rw [List.flatMap_cons, List.append_assoc,
      List.head?_append_of_ne_nil _ line.tokens_ne_nil] at first
    exact line.head_tokens t first

/-- The tokens of a text are a chain if those of each line and of the end are, and everything else
    but the end of a line may follow a line. -/
theorem isChain {R : Token → Token → Prop} (layout : Layout)
    (lines : ∀ line ∈ layout.lines, line.tokens.IsChain R)
    (between : ∀ line ∈ layout.lines, ∀ t ∈ line.tokens.getLast?, ∀ u : Token,
      u.kind ≠ .newline → R t u)
    (closing : (layout.closing ++ [layout.stop]).IsChain R) : layout.tokens.IsChain R := by
  obtain ⟨all, outdents, stop, closes, stops⟩ := layout
  induction all with
  | nil => exact closing
  | cons line others ih =>
    have rest := ih (fun line member => lines line (List.mem_cons_of_mem _ member))
      (fun line member => between line (List.mem_cons_of_mem _ member)) closing
    have whole : tokens ⟨line :: others, outdents, stop, closes, stops⟩ =
        line.tokens ++ tokens ⟨others, outdents, stop, closes, stops⟩ := by simp [tokens]
    rw [whole]
    refine (lines line List.mem_cons_self).append rest ?_
    intro t left u right
    exact between line List.mem_cons_self t left u (head_tokens _ u right)

theorem isChain_joins (layout : Layout) : layout.tokens.IsChain Joins := by
  refine layout.isChain (fun line _ => line.isChain_joins) ?_ (isChain_of_forall ?_)
  · intro line _ t last u other
    exact joins_of_layout (line.last_tokens t last).1 other
  · have kinds : ∀ t ∈ layout.closing ++ [layout.stop], t.kind = .outdent ∨ t.kind = .eof := by
      intro t member
      rcases List.mem_append.1 member with member | member
      · exact .inl (layout.closes t member)
      · obtain rfl := List.mem_singleton.1 member
        exact .inr layout.stops
    intro t left u right
    have first := kinds t left
    have second := kinds u right
    refine joins_of_layout ?_ ?_
    · rcases first with kind | kind <;> simp [kind, TokenKind.isLayout]
    · rcases second with kind | kind <;> simp [kind]

theorem isChain_joinsTidily (layout : Layout)
    (filled : ∀ line ∈ layout.lines, line.words ≠ []) : layout.tokens.IsChain JoinsTidily := by
  refine layout.isChain (fun line _ => line.isChain_joinsTidily) ?_ (isChain_of_forall ?_)
  · intro line member t last u _
    have newline := (line.last_tokens t last).2 (filled line member)
    simp [JoinsTidily, newline]
  · have kinds : ∀ t ∈ layout.closing ++ [layout.stop], t.kind ≠ .indent := by
      intro t member
      rcases List.mem_append.1 member with member | member
      · simp [layout.closes t member]
      · obtain rfl := List.mem_singleton.1 member
        simp [layout.stops]
    intro t left u right
    exact ⟨fun kind => absurd kind (kinds u right), fun kind => absurd kind (kinds t left)⟩

/-- The end stands last and nowhere else. -/
theorem stop_tokens (layout : Layout) : ∃ before, layout.tokens = before ++ [layout.stop] ∧
    ∀ t ∈ before, t.kind ≠ .eof := by
  refine ⟨layout.lines.flatMap LogicalLine.tokens ++ layout.closing, by simp [tokens], ?_⟩
  intro t member
  rcases List.mem_append.1 member with member | member
  · obtain ⟨line, -, member⟩ := List.mem_flatMap.1 member
    exact line.kind_of_mem_tokens t member
  · simp [layout.closes t member]

/-- A line ends behind a word. -/
theorem newline_tokens (layout : Layout) {before after : List Token} {t : Token}
    (split : layout.tokens = before ++ t :: after) (kind : t.kind = .newline) :
    ∃ word ∈ before.getLast?, word.kind.isLayout = false := by
  rcases List.eq_nil_or_concat before with rfl | ⟨before, word, rfl⟩
  · exact absurd kind (layout.head_tokens t (by simp [split]))
  · refine ⟨word, by simp, ?_⟩
    have neighbours : layout.tokens = before ++ word :: t :: after := by simp [split]
    exact (List.isChain_iff_forall_rel_of_append_cons_cons.1 layout.isChain_joins neighbours).1 kind

/-- Behind a word the line goes on or ends. -/
theorem word_tokens (layout : Layout) {before after : List Token} {word t : Token}
    (split : layout.tokens = before ++ word :: t :: after) (spelt : word.kind.isLayout = false) :
    t.kind ≠ .indent ∧ t.kind ≠ .outdent ∧ t.kind ≠ .eof :=
  (List.isChain_iff_forall_rel_of_append_cons_cons.1 layout.isChain_joins split).2 spelt

/-- In lines that all hold words, a block opens at the beginning of a line and in front of a
    word. -/
theorem indent_tokens (layout : Layout) (filled : ∀ line ∈ layout.lines, line.words ≠ [])
    {before after : List Token} {t : Token} (split : layout.tokens = before ++ t :: after)
    (kind : t.kind = .indent) :
    (∀ last ∈ before.getLast?, last.kind = .newline) ∧
      ∃ word ∈ after.head?, word.kind.isLayout = false := by
  have tidy := List.isChain_iff_forall_rel_of_append_cons_cons.1 (layout.isChain_joinsTidily filled)
  constructor
  · intro last behind
    obtain ⟨before, rfl⟩ := List.getLast?_eq_some_iff.1 behind
    have neighbours : layout.tokens = before ++ last :: t :: after := by simp [split]
    exact (tidy neighbours).1 kind
  · cases after with
    | nil =>
      obtain ⟨others, tokens, -⟩ := layout.stop_tokens
      obtain ⟨-, last⟩ := List.append_inj' (tokens.symm.trans split) rfl
      obtain rfl := List.cons.inj last |>.1
      rw [layout.stops] at kind
      cases kind
    | cons word after => exact ⟨word, rfl, (tidy split).2 kind⟩

end Layout

/-- The tokens of a text are well laid out. -/
structure IsLaidOut (ts : List Token) : Prop where
  lines : ∃ layout : Layout, ts = layout.tokens
  stop : ∃ before stop, ts = before ++ [stop] ∧ stop.kind = .eof ∧ ∀ t ∈ before, t.kind ≠ .eof
  newline : ∀ before t after, ts = before ++ t :: after → t.kind = .newline →
    ∃ word ∈ before.getLast?, word.kind.isLayout = false
  word : ∀ before word t after, ts = before ++ word :: t :: after → word.kind.isLayout = false →
    t.kind ≠ .indent ∧ t.kind ≠ .outdent ∧ t.kind ≠ .eof
  balanced : ∀ before, before <+: ts → outdents before ≤ indents before
  closed : outdents ts = indents ts
  /-- Layout behind an open bracket is what the end of the text settles. -/
  brackets : ∀ before t after, ts = before ++ t :: after → t.kind.isLayout = true →
    openBrackets before ≠ 0 → ∃ earlier blocks, earlier ++ (t :: after).map (·.kind) =
      .newline :: List.replicate blocks .outdent ++ [.eof]

/-- Each block opens at the beginning of a line, in front of a word. -/
def OpensTidily (ts : List Token) : Prop :=
  ∀ before t after, ts = before ++ t :: after → t.kind = .indent →
    (∀ last ∈ before.getLast?, last.kind = .newline) ∧
      ∃ word ∈ after.head?, word.kind.isLayout = false

end TekLang
