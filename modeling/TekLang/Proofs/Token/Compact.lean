import TekLang.Proofs.Token.Identifiers

/-!
# Words without blanks

Names and marks are read one by one although no blanks stand between them, as long as no name stands
right behind another: `Compact` says this of words that also close every bracket they open. A line
of words is read as these words, however they stand on it.
-/

namespace TekLang

namespace TokenKind

/-- The marks of a single character, but for the one that other marks go on with. -/
def isSingle (kind : TokenKind) : Bool :=
  kind.isMark && kind.describe.length == 1 && kind != equal

theorem isMark_of_isSingle {kind : TokenKind} (single : kind.isSingle = true) :
    kind.isMark = true := by
  unfold isSingle at single
  rw [Bool.and_eq_true, Bool.and_eq_true] at single
  exact single.1.1

theorem isMark_ofWord (word : String) : (ofWord word).isMark = false := by
  have keyword : ∀ kind ∈ keywords, kind.isMark = false := by decide
  rcases ofWord_cases word with kind | ⟨kind, member, -, same⟩ | ⟨-, kind⟩
  · rw [kind]
    rfl
  · rw [same]
    exact keyword kind member
  · rw [kind]
    rfl

end TokenKind

/-- The mark that a word of this shape is if nothing goes on with it. -/
def Shape.mark? : Shape → Option TokenKind
  | whole kind => some kind
  | sign alone _ => alone
  | _ => none

theorem TokenKind.exists_char {kind : TokenKind} (single : kind.isSingle = true) :
    ∃ c, kind.describe.toList = [c] ∧ OpensWord c ∧ c ≠ '=' ∧ isWordPart c = false ∧
      (Shape.ofChar c).mark? = some kind := by
  refine ⟨kind.describe.toList.headD ' ', ?_⟩
  revert single
  cases kind <;> decide

namespace Lexeme

variable {l : Lexeme} {kind : TokenKind}

theorem settle_of_mark? (mark : l.shape.mark? = some kind) (stop : Position) :
    l.settle stop = [l.token kind stop] := by
  obtain ⟨start, spelling, shape⟩ := l
  cases shape with
  | whole | sign =>
    cases mark
    rfl
  | _ => cases mark

theorem isQuoted_of_mark? (mark : l.shape.mark? = some kind) : l.shape.isQuoted = false := by
  cases shape : l.shape with
  | quoted =>
    rw [shape] at mark
    cases mark
  | _ => rfl

end Lexeme

/-- Whether a token is a name or a mark of a single character. -/
def Token.IsNameOrMark (t : Token) : Prop :=
  t.kind = .identifier ∧ IsName t.lexeme ∨ t.kind.isSingle = true ∧ t.lexeme = t.kind.describe

/-- One of two words is a mark. -/
def Token.Parted (t u : Token) : Prop := t.kind.isMark = true ∨ u.kind.isMark = true

/-- A mark, which is spelt as it is described. -/
def Token.mark (kind : TokenKind) : Token := ⟨kind, kind.describe, default⟩

/-- A name. -/
def Token.name (lexeme : String) : Token := ⟨.identifier, lexeme, default⟩

namespace Token

variable {t u : Token}

theorem isNameOrMark_mark {kind : TokenKind} (single : kind.isSingle = true) :
    (mark kind).IsNameOrMark := .inr ⟨single, rfl⟩

theorem isNameOrMark_name {lexeme : String} (named : IsName lexeme) :
    (name lexeme).IsNameOrMark := .inl ⟨rfl, named⟩

theorem IsNameOrMark.isReadable (word : t.IsNameOrMark) : t.IsReadable := by
  rcases word with ⟨kind, named⟩ | ⟨single, spelt⟩
  · exact isReadable_of_isName named kind
  · obtain ⟨c, char, opens, -, -, mark⟩ := TokenKind.exists_char single
    rw [← spelt] at char
    refine ⟨c, [], char, opens, fun place => ⟨.ofChar place c, rfl, ?_, fun stop => ?_⟩⟩
    · exact Lexeme.ends_of_unquoted (Lexeme.isQuoted_of_mark? mark)
    · have spelling : c.toString = t.lexeme := String.ext (by simp [char])
      rw [Lexeme.settle_of_mark? mark, Lexeme.token, Lexeme.ofChar, spelling]

theorem IsNameOrMark.first (word : t.IsNameOrMark) {c : Char} (first : c ∈ t.lexeme.toList.head?) :
    c ≠ '=' ∧ (t.kind.isMark = true → isWordPart c = false) := by
  rcases word with ⟨kind, named⟩ | ⟨single, spelt⟩
  · obtain ⟨⟨d, rest, spelt, start, -⟩, -⟩ := isName_iff.1 named
    rw [spelt] at first
    cases first
    refine ⟨?_, ?_⟩
    · rintro rfl
      cases start
    · rw [kind]
      exact nofun
  · obtain ⟨d, char, -, other, part, -⟩ := TokenKind.exists_char single
    rw [spelt, char] at first
    cases first
    exact ⟨other, fun _ => part⟩

/-- No blank is needed between a mark and what stands beside it. -/
theorem IsNameOrMark.meets (word : t.IsNameOrMark) (next : u.IsNameOrMark) (parted : t.Parted u) :
    t.Meets u := by
  intro l settles place c first
  obtain ⟨other, part⟩ := next.first first
  obtain ⟨span, settled⟩ := settles place
  have one {v w : Token} (same : [Piece.token v] = [Piece.token w]) : v = w := by
    cases same
    rfl
  obtain ⟨start, spelling, shape⟩ := l
  cases shape with
  | whole => rfl
  | word =>
    -- What is read as a word is no mark, so the next one is.
    have kind : TokenKind.ofWord spelling = t.kind := congrArg Token.kind (one settled)
    have mark := parted.resolve_left (by rw [← kind, TokenKind.isMark_ofWord]; exact nofun)
    exact if_neg (by rw [part mark]; exact nofun)
  | number fraction =>
    have kind : TokenKind.number = t.kind := congrArg Token.kind (one settled)
    rcases word with ⟨other, -⟩ | ⟨single, -⟩
    · exact absurd (kind.trans other) nofun
    · rw [← kind] at single
      cases single
  | sign alone => exact if_neg other
  | numberDot => cases (List.cons.inj settled).2
  | quoted | foreign => cases settled

end Token

/-- Lists of words with a mark between any two. -/
def markedOff (kind : TokenKind) (parts : List (List Token)) : List Token :=
  [Token.mark kind].intercalate parts

theorem markedOff_singleton (kind : TokenKind) (ts : List Token) : markedOff kind [ts] = ts :=
  List.intercalate_singleton

theorem markedOff_cons_cons (kind : TokenKind) (ts us : List Token) (parts : List (List Token)) :
    markedOff kind (ts :: us :: parts) = ts ++ .mark kind :: markedOff kind (us :: parts) := by
  rw [markedOff, List.intercalate_cons_cons, List.append_assoc]
  rfl

/-- The characters of words without anything between them. -/
def letters (ts : List Token) : List Char := ts.flatMap (·.lexeme.toList)

theorem letters_append (ts us : List Token) : letters (ts ++ us) = letters ts ++ letters us :=
  List.flatMap_append

/-- Names and marks among which no name stands beside another and which close every bracket that
    they open. -/
structure Compact (ts : List Token) : Prop where
  words : ∀ t ∈ ts, t.IsNameOrMark
  apart : ts.IsChain Token.Parted
  closed : ∀ nesting, ts.foldl (fun nesting t => Scan.nestingAfter nesting t.kind) nesting = nesting

namespace Compact

variable {ts us : List Token}

theorem nil : Compact [] := ⟨List.forall_mem_nil _, .nil, fun _ => rfl⟩

theorem name {lexeme : String} (named : IsName lexeme) : Compact [.name lexeme] :=
  ⟨List.forall_mem_singleton.2 (Token.isNameOrMark_name named), .singleton _, fun _ => rfl⟩

theorem isChain_insert {kind : TokenKind} (single : kind.isSingle = true)
    (left : ts.IsChain Token.Parted) (right : us.IsChain Token.Parted) :
    (ts ++ Token.mark kind :: us).IsChain Token.Parted := by
  have mark := TokenKind.isMark_of_isSingle single
  refine List.isChain_append.2 ⟨left, ?_, ?_⟩
  · exact right.cons fun u _ => .inl mark
  · rintro t - u first
    cases first
    exact .inr mark

/-- A mark that is no bracket can stand between. -/
theorem insert {kind : TokenKind} (single : kind.isSingle = true)
    (flat : ∀ nesting, Scan.nestingAfter nesting kind = nesting) (left : Compact ts)
    (right : Compact us) : Compact (ts ++ .mark kind :: us) where
  words := List.forall_mem_append.2
    ⟨left.words, List.forall_mem_cons.2 ⟨Token.isNameOrMark_mark single, right.words⟩⟩
  apart := isChain_insert single left.apart right.apart
  closed nesting := by
    rw [List.foldl_append, List.foldl_cons, left.closed, right.closed]
    exact flat nesting

/-- So can a pair of brackets. -/
theorem insert_brackets (left : Compact ts) (right : Compact us) :
    Compact (ts ++ .mark .leftBracket :: .mark .rightBracket :: us) where
  words := List.forall_mem_append.2 ⟨left.words, List.forall_mem_cons.2
    ⟨Token.isNameOrMark_mark rfl, List.forall_mem_cons.2
      ⟨Token.isNameOrMark_mark rfl, right.words⟩⟩⟩
  apart := isChain_insert rfl left.apart (@isChain_insert [] us _ rfl .nil right.apart)
  closed nesting := by
    rw [List.foldl_append, List.foldl_cons, List.foldl_cons, left.closed, right.closed]
    rfl

theorem markedOff {kind : TokenKind} (single : kind.isSingle = true)
    (flat : ∀ nesting, Scan.nestingAfter nesting kind = nesting) {parts : List (List Token)}
    (each : ∀ ts ∈ parts, Compact ts) : Compact (markedOff kind parts) := by
  induction parts with
  | nil => exact nil
  | cons ts parts ih =>
    obtain ⟨first, others⟩ := List.forall_mem_cons.1 each
    cases parts with
    | nil =>
      rw [markedOff_singleton]
      exact first
    | cons us parts =>
      rw [markedOff_cons_cons]
      exact insert single flat first (ih others)

/-- Such words can be written without blanks. -/
theorem spellsBehind {t : Token} (compact : Compact (t :: ts)) :
    SpellsBehind t (letters ts) ts := by
  obtain ⟨words, apart, -⟩ := compact
  induction ts generalizing t with
  | nil => exact .nil
  | cons u ts ih =>
    obtain ⟨first, others⟩ := List.forall_mem_cons.1 words
    have next := others u List.mem_cons_self
    obtain ⟨beside, apart⟩ := List.isChain_cons_cons.1 apart
    exact .cons next.isReadable (.none (first.meets next beside)) (ih others apart)

end Compact

/-- A text of one line, on which no bracket stays open, is read as the words on it. -/
theorem facesOf_line {first : Token} {cs : List Char} {words : List Token} {source : String}
    (readable : first.IsReadable) (spells : SpellsBehind first cs words)
    (closed : openBrackets (first :: words) = 0)
    (text : source.toList = first.lexeme.toList ++ cs ++ ['\n']) :
    facesOf (pieces source) =
        (first :: words).map Token.face ++ [(.newline, none), (.eof, none)] ∧
      faultsOf (pieces source) = [] := by
  obtain ⟨middle, span, reads, pends, blocks, nesting⟩ :=
    Scan.reads_first (s := .initial) rfl readable
  obtain ⟨behind, ps, last, readsWords, pends', faces, faults, blocks', nesting'⟩ :=
    Scan.reads_behind spells pends
  obtain ⟨after, qs, readsFeed, faultsFeed, blocks'', ends⟩ := Scan.reads_feed pends'
  have flat : Scan.nestingAfter behind.nesting last.kind = 0 := by
    rw [nesting', nesting]
    exact closed
  obtain ⟨-, facesFeed, ⟨_, place⟩, -, hasWords⟩ := ends.resolve_right fun other => by omega
  have noBlocks : after.blocks = [] := by
    rw [blocks'', blocks', blocks]
    rfl
  have whole : pieces source = ps ++ qs ++ after.ending := by
    have line := (reads.append readsWords).append readsFeed
    rw [← text] at line
    rw [Scan.pieces_eq_read, show Scan.initial.read source.toList = _ from line,
      Scan.finish_of_outside (Scan.outside_of_margin place)]
    rfl
  refine ⟨?_, ?_⟩
  · rw [whole, facesOf_append, facesOf_append, facesFeed, after.facesOf_ending, hasWords, noBlocks,
      ← faces]
    simp
  · rw [whole, faultsOf_append, faultsOf_append, faults, faultsFeed, after.faultsOf_ending]
    rfl

end TekLang
