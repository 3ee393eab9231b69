import TekLang.Proofs.Grammar.Concatenation
import TekLang.Proofs.Grammar.Progress

/-!
# Starting again

The loop at the top of a program remembers nothing but where it stands and how many nodes it has
made: a reader looks behind its first token only at tokens that it took itself. So wherever a round
begins, be it behind a declaration or behind a fault, the rest of the program is read as if the
tokens that are left were all there are, except that the nodes are counted on.
-/

namespace TekLang

/-! ### Counting on -/

/-- Every token with its own spelling, and nodes counted on from `count`. -/
def Translation.countingFrom (count : NodeId) : Translation :=
  { refl with number := (· + count), number_succ id := Nat.add_right_comm id 1 count }

theorem Node.translated_countingFrom (count : NodeId) (n : Node) :
    translated (.countingFrom count) n = n.renumbered (· + count) := by
  refine (eq_fold (fun id span form => ?_) n).symm
  rw [renumbered_mk, Form.mapTokens_map]
  exact congrArg (fun same : Form Node => Node.mk _ span (same.map _)) form.mapTokens_id.symm

theorem Cursor.translated_countingFrom (count : NodeId) (c : Cursor) :
    translated (.countingFrom count) c = { c with nextId := c.nextId + count } :=
  congrArg (Cursor.mk · _ _ _) (List.map_id c.rest)

/-- What is made when the nodes are counted on from `count`. -/
def TopLevel.countedFrom (count : NodeId) (top : TopLevel) : TopLevel :=
  ⟨top.body.map (Node.renumbered (· + count)), top.errors, top.nextId + count⟩

theorem topLevel_countingFrom (count : NodeId) (c : Cursor) :
    topLevel c.rest { c with nextId := c.nextId + count } =
      (topLevel c.rest c).countedFrom count := by
  have same (ts : List Token) : translated (.countingFrom count) ts = ts := List.map_id ts
  have read := topLevel_translated (τ := .countingFrom count) c
  rw [same, c.translated_countingFrom] at read
  refine read.trans (congrArg (TopLevel.mk · _ _) ?_)
  exact List.map_congr_left fun n _ => n.translated_countingFrom count

/-! ### Rounds -/

namespace Cursor

/-- What the loop at the top makes of the tokens that are left. -/
def program (c : Cursor) : TopLevel := topLevel c.rest c

theorem program_eq_round (c : Cursor) : c.program = programRound id program c :=
  (congrFun ((topLevel_ends id program).2 rfl) c).symm

variable {c : Cursor} {t : Token} {rest : List Token}

theorem program_ended (ended : c.rest = []) : c.program = ⟨[], [], c.nextId⟩ :=
  topLevel_ended _ ended

theorem program_layout (ahead : c.rest = t :: rest)
    (layout : t.kind = .newline ∨ t.kind = .outdent) :
    c.program = { c with rest : Cursor }.program := by
  rw [program_eq_round, programRound, ahead]
  exact if_pos layout

/-- An attempt adds a declaration or a fault to what is made of the tokens behind it. -/
theorem program_attempt (ahead : c.rest = t :: rest)
    (word : ¬(t.kind = .newline ∨ t.kind = .outdent)) :
    c.program = ⟨c.declared?.toList ++ c.resumed.program.body,
      c.fault?.toList ++ c.resumed.program.errors, c.resumed.program.nextId⟩ := by
  rw [program_eq_round, programRound, ahead]
  dsimp only
  rw [if_neg word]
  unfold declared? fault? resumed
  cases Parser.construct .declaration c with
  | ok n c' => rfl
  | error e c' =>
    dsimp only
    rw [id, ite_self]
    rfl

/-- A declaration that is read comes in front of what is made of the tokens behind it. -/
theorem program_declaration (ahead : c.rest = t :: rest)
    (word : ¬(t.kind = .newline ∨ t.kind = .outdent)) {n : Node} {d : Cursor}
    (run : Parser.construct .declaration c = .ok n d) :
    c.program = ⟨n :: d.program.body, d.program.errors, d.program.nextId⟩ := by
  rw [program_attempt ahead word, declared?, fault?, resumed, run]
  rfl

theorem moves_resumed (c : Cursor) : c.resumed.rest <:+ c.rest ∧ c.resumed.stop = c.stop := by
  have forward := (Parser.advances_construct .declaration).forward
  unfold resumed
  split
  · next n c' run =>
    have moves := forward.ok run
    exact ⟨moves.rest_suffix, moves.stop_eq⟩
  · next e c' run =>
    have moves := forward.error run
    exact ⟨c'.recover_suffix.trans moves.rest_suffix, moves.stop_eq⟩

end Cursor

/-- The loop at the top, begun at one place, begins a round at another one. In between a declaration
    is tried to be read at the `places`. -/
inductive Comes : Cursor → List Cursor → Cursor → Prop
  | start {c} : Comes c [] c
  | skip {c t rest places d} (ahead : c.rest = t :: rest)
    (layout : t.kind = .newline ∨ t.kind = .outdent) (others : Comes { c with rest } places d) :
    Comes c places d
  | attempt {c t rest places d} (ahead : c.rest = t :: rest)
    (word : ¬(t.kind = .newline ∨ t.kind = .outdent)) (others : Comes c.resumed places d) :
    Comes c (c :: places) d

namespace Comes

variable {c d : Cursor} {places : List Cursor}

theorem rest_suffix (comes : Comes c places d) : d.rest <:+ c.rest := by
  induction comes with
  | start => exact List.suffix_rfl
  | skip ahead _ _ ih => exact ih.trans (ahead ▸ List.suffix_cons _ _)
  | attempt _ _ _ ih => exact ih.trans (Cursor.moves_resumed _).1

theorem stop_eq (comes : Comes c places d) : d.stop = c.stop := by
  induction comes with
  | start => rfl
  | skip _ _ _ ih => exact ih
  | attempt _ _ _ ih => exact ih.trans (Cursor.moves_resumed _).2

/-- A program is what was found at the places and then what is made of the tokens left. -/
theorem program_eq (comes : Comes c places d) : c.program =
    ⟨places.filterMap Cursor.declared? ++ d.program.body,
      places.filterMap Cursor.fault? ++ d.program.errors, d.program.nextId⟩ := by
  induction comes with
  | start => rfl
  | skip ahead layout _ ih => rw [Cursor.program_layout ahead layout, ih]
  | attempt ahead word _ ih =>
    rw [Cursor.program_attempt ahead word, ih, List.filterMap_cons, List.filterMap_cons]
    cases Cursor.declared? _ <;> cases Cursor.fault? _ <;> rfl

end Comes

/-! ### The tokens that are left -/

section Left

variable {used left : List Token} (words : ∀ t ∈ used, t.kind ≠ .eof)
include words

theorem rest_ofTokens_append :
    (Cursor.ofTokens (used ++ left)).rest = used ++ (Cursor.ofTokens left).rest :=
  List.takeWhile_append_of_pos fun t there => decide_eq_true (words t there)

/-- Tokens in front do not change where a text ends. -/
theorem stop_ofTokens_append (some : left ≠ []) :
    (Cursor.ofTokens (used ++ left)).stop = (Cursor.ofTokens left).stop := by
  have found : (used ++ left).find? (·.kind = .eof) = left.find? (·.kind = .eof) := by
    rw [List.find?_append, List.find?_eq_none.2 fun t there => by simpa using words t there,
      Option.none_or]
  have last : endOfInput (used ++ left) = endOfInput left := by
    unfold endOfInput
    rw [List.getLast?_append_of_ne_nil _ some]
  change ((used ++ left).find? _).getD _ = (left.find? _).getD _
  rw [found, last]

end Left

/-- From a place in front of the tokens of a text the loop at the top makes what it makes of that
    text alone, except that it counts the nodes on. -/
theorem Cursor.program_of_ofTokens {d : Cursor} {left : List Token}
    (rest : d.rest = (ofTokens left).rest) (stop : d.rest ≠ [] → d.stop = (ofTokens left).stop) :
    d.program = (ofTokens left).program.countedFrom d.nextId := by
  by_cases ended : d.rest = []
  · rw [program_ended ended, program_ended (rest ▸ ended)]
    exact congrArg (TopLevel.mk [] []) (Nat.zero_add _).symm
  · have counted := topLevel_countingFrom d.nextId (ofTokens left)
    unfold program
    rw [← counted, ← rest]
    obtain ⟨rest', stop', last, id⟩ := d
    obtain rfl : rest' = (ofTokens left).rest := rest
    obtain rfl : stop' = (ofTokens left).stop := stop ended
    rw [topLevel_of_last _ _ _ last (ofTokens left).last]
    exact congrArg (fun id => topLevel _ ⟨_, _, _, id⟩) (Nat.zero_add id).symm

/-- The loop at the top, begun at any tape, makes what the tokens left on it are parsed to. -/
theorem Tape.declarations_eq (t : Tape) :
    let read := TokenStream.declarations (TokenStream.rounds t) t
    let later := parse (t.tokens.drop t.current)
    read.body = later.program.children.map (Node.renumbered (· + t.nextId)) ∧
    read.errors.map (·.diagnostic) = later.diagnostics ∧
    read.place.nextId = later.program.id + t.nextId := by
  intro read later
  obtain ⟨behind, shows⟩ := t.shows
  let sim := simulation t.tokens behind
  have program := t.cursor.program_of_ofTokens rfl fun _ => rfl
  have made : sim.ShowsProgram t.cursor.stop read t.cursor.program :=
    sim.declarations_shows _ _ ⟨_, shows⟩ (sim.rounds shows) (Nat.le_refl _)
  rw [program] at made
  obtain ⟨body, errors, last, place⟩ := made
  have body : read.body = _ := body.trans (map_translated_refl _)
  have nextId : read.place.nextId = _ := place.nextId
  unfold later
  rw [parse_eq, body, errors, nextId]
  exact ⟨rfl, rfl, rfl⟩

/-- Behind the declarations and the faults found up to a round of the loop at the top comes what the
    tokens from there on are parsed to. -/
theorem Comes.parse_eq {tokens : List Token} {places : List Cursor} {d : Cursor}
    (comes : Comes (.ofTokens tokens) places d) :
    let k := (Cursor.ofTokens tokens).rest.length - d.rest.length
    let later := parse (tokens.drop k)
    d.rest = (tokens.drop k).takeWhile (·.kind ≠ .eof) ∧
    (parse tokens).program.children = places.filterMap Cursor.declared? ++
      later.program.children.map (Node.renumbered (· + d.nextId)) ∧
    (parse tokens).diagnostics = (places.filterMap Cursor.fault?).map (·.diagnostic) ++
      later.diagnostics ∧
    (parse tokens).program.id = later.program.id + d.nextId := by
  intro k later
  obtain ⟨used, split⟩ := comes.rest_suffix
  have words : ∀ t ∈ used, t.kind ≠ .eof := by
    intro t there
    have among : t ∈ tokens.takeWhile (·.kind ≠ .eof) := by
      change t ∈ (Cursor.ofTokens tokens).rest
      rw [← split]
      exact List.mem_append_left _ there
    simpa using List.mem_takeWhile_imp among
  have dropped : tokens = used ++ tokens.drop k := by
    have whole : tokens = used ++ (d.rest ++ tokens.dropWhile (·.kind ≠ .eof)) := by
      rw [← List.append_assoc, split]
      exact List.takeWhile_append_dropWhile.symm
    have length : k = used.length := by
      have lengths := congrArg List.length split
      rw [List.length_append] at lengths
      omega
    rw [length]
    nth_rewrite 2 [whole]
    rw [List.drop_left]
    exact whole
  have rest : d.rest = (Cursor.ofTokens (tokens.drop k)).rest := by
    refine List.append_cancel_left (split.trans ?_)
    rw [dropped, rest_ofTokens_append words, ← dropped]
  have stop : d.rest ≠ [] → d.stop = (Cursor.ofTokens (tokens.drop k)).stop := by
    intro some
    have more : tokens.drop k ≠ [] := by
      intro none
      rw [rest, none] at some
      exact some rfl
    rw [comes.stop_eq, ← stop_ofTokens_append words more, ← dropped]
  have program := comes.program_eq
  rw [Cursor.program_of_ofTokens rest stop] at program
  unfold later
  rw [TekLang.parse_eq, TekLang.parse_eq]
  refine ⟨rest, congrArg TopLevel.body program, ?_, congrArg TopLevel.nextId program⟩
  refine Eq.trans ?_ List.map_append
  exact congrArg (fun top => top.errors.map (·.diagnostic)) program

/-- Where the loop at the top begins a round, be it behind a declaration or behind a fault, the rest
    of a program is read as a program of its own: what comes behind the declarations and the faults
    that were found up to there is what the tokens from there on are parsed to, with the nodes
    counted on from the number of those made so far. So it is from every tape that the loop may be
    begun at. -/
theorem parse_restarts :
    (∀ tokens places d, Comes (.ofTokens tokens) places d →
      let k := (Cursor.ofTokens tokens).rest.length - d.rest.length
      let later := parse (tokens.drop k)
      d.rest = (tokens.drop k).takeWhile (·.kind ≠ .eof) ∧
      (parse tokens).program.children = places.filterMap Cursor.declared? ++
        later.program.children.map (Node.renumbered (· + d.nextId)) ∧
      (parse tokens).diagnostics = (places.filterMap Cursor.fault?).map (·.diagnostic) ++
        later.diagnostics ∧
      (parse tokens).program.id = later.program.id + d.nextId) ∧
    ∀ t : Tape,
      let read := TokenStream.declarations (TokenStream.rounds t) t
      let later := parse (t.tokens.drop t.current)
      read.body = later.program.children.map (Node.renumbered (· + t.nextId)) ∧
      read.errors.map (·.diagnostic) = later.diagnostics ∧
      read.place.nextId = later.program.id + t.nextId :=
  ⟨fun _ _ _ comes => comes.parse_eq, Tape.declarations_eq⟩

/-- Behind a name with a stray bracket a return is read as if it were the first statement. -/
theorem parse_restarts_stray :
    let word (kind : TokenKind) := Token.silent kind (.point .origin)
    let tokens := [word .identifier, word .rightParen, word .kwReturn, word .newline]
    let c := Cursor.ofTokens tokens
    Comes c [c] c.resumed ∧ c.fault?.isSome = true ∧
      (parse tokens).program.children =
        (parse (tokens.drop 2)).program.children.map (Node.renumbered (· + 1)) := by
  intro word tokens c
  have comes : Comes c [c] c.resumed := .attempt rfl (by decide) .start
  have fails : c.fault?.isSome = true ∧ c.declared?.isNone = true ∧ c.resumed.nextId = 1 ∧
      c.rest.length - c.resumed.rest.length = 2 := by
    decide +kernel
  obtain ⟨fault, none, count, length⟩ := fails
  obtain ⟨-, children, -, -⟩ := parse_restarts.1 tokens [c] c.resumed comes
  rw [count, length, List.filterMap_cons, Option.isNone_iff_eq_none.1 none] at children
  exact ⟨comes, fault, children⟩

end TekLang
