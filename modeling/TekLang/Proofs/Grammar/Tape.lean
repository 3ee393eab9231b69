import Mathlib.Data.List.TakeWhile
import TekLang.Proofs.Grammar.Respelling

/-!
# Reading from a tape

A tape counts on from its place over all of its tokens, and behind the last one it finds the last
one again. Still no reader finds out what stands behind the first end of input: in front of it
everything that looks ahead stops there at the latest, and nothing reads past it. So a tape shows
the list of the tokens up to its first end of input, from step to step, and a program is read from
it as it is read from that list (`parse_eq`). Wherever a tape stands, what is made of it is what is
made of the cursor that stands there (`Tape.outcome_eq`).
-/

namespace TekLang

namespace Tape

/-! ### Looking ahead -/

/-- Counting on from an offset, the tape holds the tokens `ts` and an end of input behind them. -/
inductive Ahead (t : Tape) : (offset : Nat) → List Token → Prop
  | ended {offset} (stop : (t.peekAt offset).kind = .eof) : Ahead t offset []
  | cons {offset u us} (first : t.peekAt offset = u) (word : u.kind ≠ .eof)
    (others : Ahead t (offset + 1) us) : Ahead t offset (u :: us)

namespace Ahead

variable {t : Tape} {offset : Nat} {us : List Token}

theorem kind_eq (ahead : Ahead t offset us) :
    (t.peekAt offset).kind = (us.head?.map (·.kind)).getD .eof := by
  cases ahead with
  | ended stop => exact stop
  | cons first =>
    rw [first]
    rfl

/-- A kind of words is up next where it is the kind of the first token. -/
theorem kind_iff (ahead : Ahead t offset us) {kind : TokenKind} (word : kind ≠ .eof) :
    (t.peekAt offset).kind = kind ↔ us.head?.map (·.kind) = some kind := by
  rw [ahead.kind_eq]
  cases us with
  | nil => simpa using word.symm
  | cons => simp

/-- Passing over line ends leads to the first token that is none. -/
theorem lineEnds (ahead : Ahead t offset us) {rounds : Nat} (enough : us.length ≤ rounds) :
    Ahead t (t.lineEnds rounds offset) (us.dropWhile (·.kind = .newline)) := by
  induction ahead generalizing rounds with
  | @ended offset stop =>
    cases rounds with
    | zero => exact .ended stop
    | succ rounds =>
      unfold Tape.lineEnds
      rw [if_neg (by simp [stop])]
      exact .ended stop
  | @cons offset u us first word others ih =>
    obtain ⟨rounds, rfl⟩ := Nat.exists_eq_add_of_le' (Nat.lt_of_lt_of_le us.length.succ_pos enough)
    unfold Tape.lineEnds
    rw [first]
    by_cases line : u.kind = .newline
    · rw [if_pos line, List.dropWhile_cons_of_pos (by simpa using line)]
      exact ih (Nat.le_of_succ_le_succ enough)
    · rw [if_neg line, List.dropWhile_cons_of_neg (by simpa using line)]
      exact .cons first word others

/-- Some line end is passed over where one comes next. -/
theorem lt_lineEnds_iff (t : Tape) (rounds offset : Nat) :
    offset < t.lineEnds (rounds + 1) offset ↔ (t.peekAt offset).kind = .newline := by
  have grows (rounds offset : Nat) : offset ≤ t.lineEnds rounds offset := by
    induction rounds generalizing offset with
    | zero => exact Nat.le_refl _
    | succ rounds ih =>
      unfold Tape.lineEnds
      split
      · exact Nat.le_of_succ_le (ih (offset + 1))
      · exact Nat.le_refl _
  unfold Tape.lineEnds
  by_cases line : (t.peekAt offset).kind = .newline
  · rw [if_pos line]
    exact iff_of_true (grows rounds (offset + 1)) line
  · rw [if_neg line]
    exact iff_of_false (Nat.lt_irrefl _) line

theorem startsBlock_iff (ahead : Ahead t 0 us) (enough : us.length ≤ t.tokens.length) :
    t.startsBlock = true ↔ us.head?.map (·.kind) = some .newline ∧
      (us.dropWhile (·.kind = .newline)).head?.map (·.kind) = some .indent := by
  have lines := ahead.lineEnds enough
  have some : 0 < t.tokens.length := Nat.zero_lt_of_lt t.inside
  obtain ⟨rounds, length⟩ := Nat.exists_eq_add_of_le' some
  rw [length] at lines
  unfold Tape.startsBlock
  rw [length, decide_eq_true_eq, lt_lineEnds_iff, ahead.kind_iff (by decide),
    lines.kind_iff (by decide)]

theorem startsConstructor_eq (ahead : Ahead t 0 us) :
    t.startsConstructor = Parser.startsConstructor us := by
  rw [Bool.eq_iff_iff, Tape.startsConstructor, decide_eq_true_eq]
  cases ahead with
  | ended stop => simp [stop, Parser.startsConstructor]
  | cons first word others =>
    rw [first]
    cases others with
    | ended stop => simp [stop, Parser.startsConstructor]
    | cons second => simp [second, Parser.startsConstructor]

/-- Counting on over type arguments stops at the end of input, for that is no token of theirs. -/
theorem closesBeforeParen_eq (ahead : Ahead t offset us) {rounds : Nat}
    (enough : us.length ≤ rounds) (depth : Nat) :
    t.closesBeforeParen rounds depth offset = Parser.closesBeforeParen depth us := by
  induction ahead generalizing rounds depth with
  | ended stop =>
    cases rounds with
    | zero => rfl
    | succ rounds =>
      unfold Tape.closesBeforeParen
      rw [stop]
      rfl
  | @cons offset u us first word others ih =>
    obtain ⟨rounds, rfl⟩ := Nat.exists_eq_add_of_le' (Nat.lt_of_lt_of_le us.length.succ_pos enough)
    have tail (depth : Nat) := ih (Nat.le_of_succ_le_succ enough) depth
    have paren : decide ((t.peekAt (offset + 1)).kind = .leftParen) =
        decide (us.head?.map (·.kind) = some .leftParen) :=
      decide_eq_decide.2 (others.kind_iff (by decide))
    unfold Tape.closesBeforeParen Parser.closesBeforeParen
    rw [first]
    cases u.kind with
    | identifier | dot | comma | leftBracket | rightBracket => exact tail depth
    | less => exact tail (depth + 1)
    | greater =>
      change (if depth = 1 then _ else _) = if depth = 1 then _ else _
      rw [paren, tail]
    | _ => rfl

end Ahead

/-! ### What a tape shows -/

/-- What is left of the tokens of a tape is what a cursor holds, with `behind` behind its end of
    input. The rest of what is known in the midst of reading is the same. -/
structure Shows (tokens behind : List Token) (t : Tape) (c : Cursor) : Prop where
  tokens_eq : t.tokens = tokens
  left : tokens.drop t.current = c.rest ++ c.stop :: behind
  words : ∀ u ∈ c.rest, u.kind ≠ .eof
  ends : c.stop.kind = .eof
  last : t.previous = c.last
  nextId : t.nextId = c.nextId

namespace Shows

variable {tokens behind : List Token} {t : Tape} {c : Cursor} (shows : Shows tokens behind t c)
include shows

/-- The token at an offset up to the end of input. -/
theorem peekAt_eq {front rest : List Token} {u : Token}
    (split : c.rest ++ c.stop :: behind = front ++ u :: rest) : t.peekAt front.length = u := by
  obtain rfl := shows.tokens_eq
  have found : (t.tokens.drop t.current)[front.length]? = some u := by
    rw [shows.left, split, List.getElem?_append_right (Nat.le_refl _), Nat.sub_self]
    rfl
  rw [List.getElem?_drop] at found
  obtain ⟨inside, token⟩ := List.getElem?_eq_some_iff.1 found
  have place : t.clamp front.length = ⟨t.current + front.length, inside⟩ := by
    apply Fin.ext
    change min (t.current + front.length) (t.tokens.length - 1) = t.current + front.length
    omega
  rw [peekAt, place]
  exact token

theorem ahead_from {front rest : List Token} (split : c.rest = front ++ rest) :
    Ahead t front.length rest := by
  induction rest generalizing front with
  | nil =>
    rw [List.append_nil] at split
    refine .ended ?_
    rw [shows.peekAt_eq (congrArg (· ++ c.stop :: behind) split)]
    exact shows.ends
  | cons u rest ih =>
    have next : c.rest = (front ++ [u]) ++ rest := by
      rw [split, List.append_assoc]
      rfl
    have others := ih next
    rw [List.length_append] at others
    have token : c.rest ++ c.stop :: behind = front ++ u :: (rest ++ c.stop :: behind) := by
      rw [split, List.append_assoc, List.cons_append]
    exact .cons (shows.peekAt_eq token) (shows.words u (by simp [split])) others

theorem ahead : Ahead t 0 c.rest := shows.ahead_from (List.nil_append _).symm

theorem upcoming_eq : t.peekAt 0 = c.upcoming := by
  have first {u : Token} {rest : List Token} (split : c.rest ++ c.stop :: behind = u :: rest) :
      t.peekAt 0 = u := shows.peekAt_eq (split.trans (List.nil_append _).symm)
  unfold Cursor.upcoming
  cases rest : c.rest with
  | nil => exact first (congrArg (· ++ c.stop :: behind) rest)
  | cons u us => exact first (congrArg (· ++ c.stop :: behind) rest)

theorem nextKind_eq : (t.peekAt 0).kind = c.nextKind := by
  rw [shows.ahead.kind_eq, Cursor.nextKind]
  cases c.rest <;> rfl

theorem length_le : c.rest.length ≤ t.tokens.length := by
  have length := congrArg List.length shows.left
  simp only [List.length_drop, List.length_append, List.length_cons] at length
  rw [shows.tokens_eq]
  omega

theorem atEnd_iff : (t.peekAt 0).kind = .eof ↔ c.rest = [] := by
  rw [shows.ahead.kind_eq]
  cases rest : c.rest with
  | nil => simp
  | cons u us => simpa using shows.words u (by simp [rest])

theorem startsBlock_eq : t.startsBlock = c.startsBlock := by
  have next : c.nextKind = .newline ↔ c.rest.head?.map (·.kind) = some .newline := by
    rw [← shows.nextKind_eq, shows.ahead.kind_iff (by decide)]
  rw [Bool.eq_iff_iff, shows.ahead.startsBlock_iff shows.length_le, Cursor.startsBlock,
    decide_eq_true_eq, next]

/-- Reading on, the tape shows what the cursor comes to, and both read the same token. -/
theorem advance : Shows tokens behind t.advance c.advance.2 ∧
    t.advance.previous = c.advance.1 := by
  unfold Tape.advance Cursor.advance
  cases rest : c.rest with
  | nil =>
    rw [dif_neg (not_not.2 (shows.atEnd_iff.2 rest))]
    exact ⟨shows, shows.last⟩
  | cons u us =>
    have more : (t.peekAt 0).kind ≠ .eof := by
      rw [Ne, shows.atEnd_iff, rest]
      exact List.cons_ne_nil u us
    obtain rfl := shows.tokens_eq
    have left := shows.left
    rw [rest, List.cons_append] at left
    have first : t.tokens[t.current]? = some u := by
      rw [← List.head?_drop, left]
      rfl
    rw [dif_pos more]
    have read : Tape.previous
        { t with current := t.current + 1, inside := inside_succ more } = u :=
      (List.getElem?_eq_some_iff.1 first).2
    refine ⟨⟨rfl, ?_, ?_, shows.ends, read, shows.nextId⟩, read⟩
    · change t.tokens.drop (t.current + 1) = us ++ c.stop :: behind
      rw [← List.drop_drop, left]
      rfl
    · intro v there
      exact shows.words v (rest ▸ List.mem_cons_of_mem u there)

end Shows

/-- All tapes of the same tokens, with the same tokens behind the first end of input. -/
def simulation (tokens behind : List Token) : Simulation Tape where
  τ := .refl
  Shows := Shows tokens behind
  nextKind shows := shows.nextKind_eq
  upcoming shows := shows.upcoming_eq
  atEnd shows := by
    rw [Bool.eq_iff_iff, List.isEmpty_iff, ← shows.atEnd_iff]
    exact decide_eq_true_iff
  last shows := shows.last
  startsBlock shows := shows.startsBlock_eq
  startsConstructor shows := shows.ahead.startsConstructor_eq
  startsGenericCall shows := shows.ahead.closesBeforeParen_eq shows.length_le 1
  rounds {t c} shows := by
    change _ ≤ (t.tokens.drop t.current).length
    rw [shows.tokens_eq, shows.left, List.length_append]
    exact Nat.le_add_right _ _
  index {t c t' c'} shows shows' less same := by
    change t'.current = t.current at same
    have left := shows'.left
    rw [same, shows.left] at left
    have lengths := congrArg List.length left
    rw [List.length_append, List.length_append] at lengths
    simp only [List.length_cons] at lengths
    omega
  token shows := shows.advance.2
  advance shows := shows.advance.1
  made {t c} span form shows := congrArg (Node.mk · span form) shows.nextId
  node span form shows :=
    ⟨shows.tokens_eq, shows.left, shows.words, shows.ends, shows.last,
      congrArg (· + 1) shows.nextId⟩

end Tape

/-! ### Programs -/

/-- The cursor that a list of tokens is read from. -/
def Cursor.ofTokens (tokens : List Token) : Cursor :=
  let stop := (tokens.find? (·.kind = .eof)).getD (endOfInput tokens)
  ⟨tokens.takeWhile (·.kind ≠ .eof), stop, stop, 0⟩

/-- Tokens up to an end of input are what is read, whatever stands behind it. -/
theorem Cursor.ofTokens_append {ts : List Token} (words : ∀ t ∈ ts, t.kind ≠ .eof) {e : Token}
    (ends : e.kind = .eof) (behind : List Token) :
    ofTokens (ts ++ e :: behind) = ⟨ts, e, e, 0⟩ := by
  have front : (ts ++ e :: behind).takeWhile (·.kind ≠ .eof) = ts := by
    rw [List.takeWhile_append_of_pos (by simpa using words),
      List.takeWhile_cons_of_neg (by simpa using ends), List.append_nil]
  have stop : (ts ++ e :: behind).find? (·.kind = .eof) = some e := by
    rw [List.find?_append, List.find?_cons_of_pos (by simpa using ends),
      List.find?_eq_none.2 (by simpa using words), Option.none_or]
  unfold ofTokens
  rw [front, stop, Option.getD_some]

/-- Tokens without an end of input are all read, up to the one that is made up. -/
theorem Cursor.ofTokens_of_words {ts : List Token} (words : ∀ t ∈ ts, t.kind ≠ .eof) :
    ofTokens ts = ⟨ts, endOfInput ts, endOfInput ts, 0⟩ := by
  unfold ofTokens
  rw [List.takeWhile_eq_self_iff.2 (by simpa using words),
    List.find?_eq_none.2 (by simpa using words), Option.getD_none]

/-- Closed tokens are those up to the first end of input and then more. -/
theorem closed_eq (tokens : List Token) : ∃ behind, closed tokens =
    (Cursor.ofTokens tokens).rest ++ (Cursor.ofTokens tokens).stop :: behind := by
  cases found : tokens.find? (·.kind = .eof) with
  | none =>
    have words : ∀ t ∈ tokens, t.kind ≠ .eof := by simpa using found
    have lacking : tokens.getLast?.map (·.kind) ≠ some .eof := by
      intro ends
      obtain ⟨t, last, kind⟩ := Option.map_eq_some_iff.1 ends
      exact words t (List.mem_of_getLast? last) kind
    refine ⟨[], ?_⟩
    rw [closed, if_neg lacking, Cursor.ofTokens_of_words words]
  | some stop =>
    obtain ⟨ends, front, rest, rfl, words⟩ := List.find?_eq_some_iff_append.1 found
    rw [Cursor.ofTokens_append (by simpa using words) (by simpa using ends), closed]
    by_cases complete : (front ++ stop :: rest).getLast?.map (·.kind) = some .eof
    · rw [if_pos complete]
      exact ⟨rest, rfl⟩
    · rw [if_neg complete, List.append_assoc]
      exact ⟨rest ++ [endOfInput (front ++ stop :: rest)], rfl⟩

theorem Cursor.words_ofTokens (tokens : List Token) :
    ∀ t ∈ (ofTokens tokens).rest, t.kind ≠ .eof := by
  intro t there
  simpa using List.mem_takeWhile_imp there

theorem Cursor.ends_ofTokens (tokens : List Token) : (ofTokens tokens).stop.kind = .eof := by
  change ((tokens.find? (·.kind = .eof)).getD _).kind = .eof
  cases found : tokens.find? (·.kind = .eof) with
  | none => rfl
  | some stop => simpa using List.find?_some found

/-- None of the tokens of a list is read: its tape shows those up to the first end of input. -/
theorem Tape.shows_ofTokens (tokens : List Token) : ∃ behind first,
    Shows (closed tokens) behind (.ofTokens tokens)
      { Cursor.ofTokens tokens with last := first } := by
  obtain ⟨behind, split⟩ := closed_eq tokens
  exact ⟨behind, (ofTokens tokens).previous, rfl, split, Cursor.words_ofTokens tokens,
    Cursor.ends_ofTokens tokens, rfl, rfl⟩

/-- A program is read from all of its tokens as it is from the list of those up to the first end of
    input. -/
theorem parse_eq (tokens : List Token) :
    let c := Cursor.ofTokens tokens
    let top := topLevel c.rest c
    parse tokens = ⟨⟨top.nextId, c.upcoming.span.through c.stop.span, .program top.body⟩,
      top.errors.map (·.diagnostic)⟩ := by
  intro c top
  obtain ⟨behind, first, shows⟩ := Tape.shows_ofTokens tokens
  have read := ((Tape.simulation (closed tokens) behind).readProgram_shows shows).1
  have same : topLevel c.rest { c with last := first } = top := topLevel_of_last ..
  dsimp only at read
  rw [same] at read
  refine read.trans ?_
  change Parsed.mk ⟨_, _, .program (translated .refl top.body)⟩ _ = _
  rw [map_translated_refl]
  rfl

/-- A tree is what its declarations give. -/
theorem parse_reads (tokens : List Token) : ∃ top span,
    ReadsProgram (.ofTokens tokens) top ∧
      parse tokens = ⟨⟨top.nextId, span, .program top.body⟩, top.errors.map (·.diagnostic)⟩ :=
  ⟨_, _, topLevel_reads _ (Nat.le_refl _), parse_eq tokens⟩

/-- Reading comes to a stop in front of the first end of input. -/
theorem Tape.current_readProgram (tokens : List Token) :
    (TokenStream.readProgram (Tape.ofTokens tokens)).2.current =
      (Cursor.ofTokens tokens).rest.length := by
  obtain ⟨behind, first, shows⟩ := shows_ofTokens tokens
  obtain ⟨last, ended⟩ := ((simulation (closed tokens) behind).readProgram_shows shows).2
  have start := congrArg List.length shows.left
  have stop := congrArg List.length ended.left
  simp only [List.length_drop, List.length_append, List.length_cons, List.length_nil] at start stop
  have inside := (TokenStream.readProgram (Tape.ofTokens tokens)).2.inside
  rw [ended.tokens_eq] at inside
  change _ - 0 = _ at start
  omega

/-! ### The cursor of a tape -/

namespace Tape

/-- The cursor that stands where a tape does. What is behind the next end of input is left out. -/
def cursor (t : Tape) : Cursor :=
  { Cursor.ofTokens (t.tokens.drop t.current) with last := t.previous, nextId := t.nextId }

/-- A tape shows the cursor that stands where it does. -/
theorem shows (t : Tape) : ∃ behind, Shows t.tokens behind t t.cursor := by
  have whole : closed (t.tokens.drop t.current) = t.tokens.drop t.current := by
    refine if_pos ?_
    rw [List.getLast?_drop, if_neg (Nat.not_le_of_lt t.inside)]
    exact t.ends
  obtain ⟨behind, split⟩ := closed_eq (t.tokens.drop t.current)
  rw [whole] at split
  exact ⟨behind, rfl, split, Cursor.words_ofTokens _, Cursor.ends_ofTokens _, rfl, rfl⟩

namespace Shows

variable {tokens behind : List Token} {t t' : Tape} {c c' : Cursor}

/-- And it shows no other one. -/
theorem cursor_eq (shows : Shows tokens behind t c) : t.cursor = c := by
  unfold cursor
  rw [shows.tokens_eq, shows.left, Cursor.ofTokens_append shows.words shows.ends, shows.last,
    shows.nextId]

/-- The tape has moved over the tokens that the cursor has taken. -/
theorem current_eq (shows : Shows tokens behind t c) (shows' : Shows tokens behind t' c')
    {used : List Token} (split : c.rest = used ++ c'.rest) :
    t'.current = t.current + used.length := by
  have length := congrArg List.length shows.left
  have length' := congrArg List.length shows'.left
  rw [split] at length
  simp only [List.length_drop, List.length_append, List.length_cons] at length length'
  have inside := t.inside
  have inside' := t'.inside
  rw [shows.tokens_eq] at inside
  rw [shows'.tokens_eq] at inside'
  omega

/-- A declaration is read alike. -/
theorem declaration_agrees (shows : Shows tokens behind t c) :
    (simulation tokens behind).Agrees (Parser.construct .declaration c)
      (Parser.construct .declaration t) :=
  Simulates.grammar.declaration t c shows

end Shows

/-- What comes out at a tape, told at its cursor. -/
def outcome {α : Type} : EStateM.Result SyntaxError Tape α → EStateM.Result SyntaxError Cursor α
  | .ok a t => .ok a t.cursor
  | .error e t => .error e t.cursor

/-- Whoever reads alike makes of a tape what it makes of its cursor. -/
theorem outcome_eq {α : Type} [Translatable α] {p : Parser α} {q : ParserOf Tape α}
    (same : ∀ tokens behind, Simulates (simulation tokens behind) p q)
    (own : ∀ a : α, translated .refl a = a) (t : Tape) : outcome (q t) = p t.cursor := by
  obtain ⟨behind, shows⟩ := t.shows
  have agrees := same t.tokens behind t t.cursor shows
  generalize p t.cursor = result at agrees ⊢
  generalize q t = result' at agrees ⊢
  cases agrees with
  | ok a shows' =>
    have own : translated (simulation t.tokens behind).τ a = a := own a
    rw [own, outcome, shows'.cursor_eq]
  | error e shows' => rw [outcome, shows'.cursor_eq]

/-- A construct is made of a tape as it is made of its cursor. -/
theorem construct_eq {k : Construct} (askable : Parser.IsAskable k) (t : Tape) :
    outcome (Parser.construct k t) = Parser.construct k t.cursor :=
  outcome_eq (fun _ _ => .construct askable) Node.translated_refl t

end Tape

/-! ### Parts of constructs -/

section Parts

open TekLang.Parser

theorem Tape.operand_eq (token : Token) (t : Tape) :
    outcome (operand construct token t) = operand construct token t.cursor :=
  outcome_eq (fun _ _ => .operand Simulates.grammar token) Node.translated_refl t

theorem Tape.extend_eq (left : Node) (operator : Token) (t : Tape) :
    outcome (extend construct left operator t) = extend construct left operator t.cursor := by
  refine outcome_eq (fun tokens behind => ?_) Node.translated_refl t
  have same : Simulates (simulation tokens behind) (extend construct left operator)
      (extend construct (translated .refl left) operator) :=
    .extend Simulates.grammar left operator
  rwa [left.translated_refl] at same

theorem Tape.genericArguments_eq (t : Tape) :
    outcome (genericArguments typeRef t) = genericArguments typeRef t.cursor :=
  outcome_eq (fun _ _ => .genericArguments .typeRef typeRef_follows.takes) map_translated_refl t

theorem Tape.startsGenericCall_eq (t : Tape) :
    TokenStream.startsGenericCall t = Parser.closesBeforeParen 1 t.cursor.rest := by
  obtain ⟨behind, shows⟩ := t.shows
  exact (simulation t.tokens behind).startsGenericCall shows

end Parts

end TekLang
