import TekLang.Proofs.Grammar.Blame
import TekLang.Proofs.Grammar.Rounds

/-!
# Progress

Wherever reading stands, a declaration takes a token or more, whether it can be read or not. So the
loop at the top of a program ends and needs no way out for a declaration that takes nothing, and
there are no more declarations and faults than tokens, one for each attempt to read a declaration.
-/

namespace TekLang

/-- Reading a declaration takes tokens up to the end of input and one of them at least. -/
theorem Parser.construct_takes {c : Cursor} (k : Construct) (some : c.rest ≠ []) :
    ∃ used, used ≠ [] ∧ c.rest = used ++ (placeAfter (construct k c)).rest ∧
      (placeAfter (construct k c)).last = used.getLastD c.last ∧
      (placeAfter (construct k c)).stop = c.stop := by
  have advances := advances_construct k
  obtain ⟨used, taken, last, stop⟩ := (advances.forward c).exists_used
  refine ⟨used, ?_, taken, last, stop⟩
  rintro rfl
  have less := advances.takes c some
  rw [← List.nil_append (placeAfter (construct k c)).rest, ← taken] at less
  exact Nat.lt_irrefl _ less

theorem Tape.rest_cursor_ne_nil {t : Tape} (more : TokenStream.atEnd t = false) :
    t.cursor.rest ≠ [] := by
  obtain ⟨behind, shows⟩ := t.shows
  rwa [(simulation t.tokens behind).atEnd shows, ← Bool.not_eq_true, List.isEmpty_iff] at more

/-- A tape is moved on over one token at least, and never past an end of input. -/
theorem Tape.construct_takes {t : Tape} (more : TokenStream.atEnd t = false) :
    let behind := Parser.placeAfter (Parser.construct .declaration t)
    ∃ used, used ≠ [] ∧ (∀ u ∈ used, u.kind ≠ .eof) ∧ used <+: t.tokens.drop t.current ∧
      behind.tokens = t.tokens ∧ behind.current = t.current + used.length := by
  obtain ⟨beyond, shows⟩ := t.shows
  have shows' := shows.declaration_agrees.shows
  obtain ⟨used, some, taken, -⟩ :=
    Parser.construct_takes .declaration (rest_cursor_ne_nil more)
  refine ⟨used, some, ?_, ?_, shows'.tokens_eq, shows.current_eq shows' taken⟩
  · intro u there
    exact shows.words u (taken ▸ List.mem_append_left _ there)
  · rw [shows.left, taken, List.append_assoc]
    exact List.prefix_append _ _

/-- So no token is passed over for the sake of a fault before the next construct is looked for. -/
theorem Tape.resumption_of_fault {t t' : Tape} {e : SyntaxError}
    (more : TokenStream.atEnd t = false) (run : Parser.construct .declaration t = .error e t') :
    TokenStream.resumption t t' = TokenStream.synchronize (TokenStream.rounds t') t' := by
  obtain ⟨used, some, -, -, -, moved⟩ := construct_takes more
  rw [run] at moved
  have elsewhere : TokenStream.index t' ≠ TokenStream.index t := by
    intro same
    have none : used.length = 0 := Nat.left_eq_add.1 (same.symm.trans moved)
    exact some (List.length_eq_zero_iff.1 none)
  unfold TokenStream.resumption
  rw [if_neg elsewhere]

/-! ### The loop at the top -/

/-- One round at the top of a program; `others` is the rest of the loop. Where a fault is found
    before anything is taken, `wayOut` makes sure that reading goes on elsewhere. -/
def programRound (wayOut : Cursor → Cursor) (others : Cursor → TopLevel) (c : Cursor) :
    TopLevel :=
  match c.rest with
  | [] => ⟨[], [], c.nextId⟩
  | t :: rest =>
    if t.kind = .newline ∨ t.kind = .outdent then
      others { c with rest }
    else
      match Parser.construct .declaration c with
      | .ok node c' =>
        let top := others c'
        { top with body := node :: top.body }
      | .error e c' =>
        let behind := if c'.rest.length = c.rest.length then wayOut c' else c'
        let top := others behind.recover
        { top with errors := e :: top.errors }

theorem Parser.length_lt_of_fault {c c' : Cursor} {e : SyntaxError}
    (run : construct .declaration c = .error e c') (some : c.rest ≠ []) :
    c'.rest.length < c.rest.length := by
  have less := (advances_construct .declaration).takes c some
  rw [run] at less
  exact less

theorem Parser.length_lt_of_declaration {c c' : Cursor} {n : Node}
    (run : construct .declaration c = .ok n c') (some : c.rest ≠ []) :
    c'.rest.length < c.rest.length := by
  have less := (advances_construct .declaration).takes c some
  rw [run] at less
  exact less

/-- A round of the loop at the top, which finds no use for a way out. -/
theorem topLevel_cons (wayOut : Cursor → Cursor) (t : Token) (rounds : List Token) (c : Cursor) :
    topLevel (t :: rounds) c = programRound wayOut (topLevel rounds) c := by
  unfold topLevel programRound
  cases ahead : c.rest with
  | nil => rfl
  | cons u rest =>
    have some : c.rest ≠ [] := ahead ▸ List.cons_ne_nil u rest
    dsimp only
    split
    · rfl
    · cases run : Parser.construct .declaration c with
      | ok n c' => rfl
      | error e c' =>
        have less := Parser.length_lt_of_fault run some
        dsimp only
        rw [← ahead, if_neg (Nat.ne_of_lt less)]

/-- The loop at the top ends, and whatever the way out is, it is never taken. -/
theorem topLevel_ends (wayOut : Cursor → Cursor) :
    Ends (programRound wayOut) fun c => topLevel c.rest c := by
  refine CountedPlain.ends ⟨?_, topLevel_cons wayOut, ?_⟩
  · intro other c ended
    unfold programRound topLevel
    rw [ended]
  · intro rounds other c some agrees
    unfold programRound
    cases ahead : c.rest with
    | nil => exact absurd ahead some
    | cons t rest =>
      dsimp only
      split
      · refine agrees _ ?_
        rw [ahead, List.length_cons]
        exact Nat.lt_succ_self _
      · split
        · next n c' run => rw [agrees c' (Parser.length_lt_of_declaration run some)]
        · next e c' run =>
          have less := Parser.length_lt_of_fault run some
          have fewer := Nat.lt_of_le_of_lt c'.recover_suffix.length_le less
          rw [← ahead, if_neg (Nat.ne_of_lt less), agrees _ fewer]

/-! ### Attempts to read a declaration -/

namespace Cursor

/-- The declaration that is read at a place, if there is no fault in it. -/
def declared? (c : Cursor) : Option Node :=
  match Parser.construct .declaration c with
  | .ok n _ => some n
  | .error _ _ => none

/-- The fault because of which no declaration is read at a place. -/
def fault? (c : Cursor) : Option SyntaxError :=
  match Parser.construct .declaration c with
  | .ok _ _ => none
  | .error e _ => some e

/-- Where reading goes on behind an attempt to read a declaration. -/
def resumed (c : Cursor) : Cursor :=
  match Parser.construct .declaration c with
  | .ok _ c' => c'
  | .error _ c' => c'.recover

end Cursor

/-- The places at which a declaration is tried to be read, one after another up to the end of input:
    wherever reading stands in front of anything but the end of a line or of a block. -/
inductive Attempts : Cursor → List Cursor → Prop
  | done {c} (ended : c.rest = []) : Attempts c []
  | skip {c t rest places} (ahead : c.rest = t :: rest)
    (layout : t.kind = .newline ∨ t.kind = .outdent) (others : Attempts { c with rest } places) :
    Attempts c places
  | attempt {c t rest places} (ahead : c.rest = t :: rest)
    (word : ¬(t.kind = .newline ∨ t.kind = .outdent)) (others : Attempts c.resumed places) :
    Attempts c (c :: places)

theorem Cursor.resumed_lt {c : Cursor} (some : c.rest ≠ []) :
    c.resumed.rest.length < c.rest.length := by
  unfold resumed
  split
  · next n c' run => exact Parser.length_lt_of_declaration run some
  · next e c' run =>
    exact Nat.lt_of_le_of_lt c'.recover_suffix.length_le (Parser.length_lt_of_fault run some)

/-- A program consists of what is declared at the places at which a declaration is tried, and its
    faults are those that are found there. -/
theorem topLevel_attempts (rounds : List Token) {c : Cursor}
    (enough : c.rest.length ≤ rounds.length) : ∃ places, Attempts c places ∧
      (topLevel rounds c).body = places.filterMap Cursor.declared? ∧
      (topLevel rounds c).errors = places.filterMap Cursor.fault? := by
  induction rounds generalizing c with
  | nil =>
    exact ⟨[], .done (List.length_eq_zero_iff.1 (Nat.le_zero.1 enough)), rfl, rfl⟩
  | cons round rounds ih =>
    rw [List.length_cons] at enough
    unfold topLevel
    split
    · next ended => exact ⟨[], .done ended, rfl, rfl⟩
    · next t rest ahead =>
      have some : c.rest ≠ [] := ahead ▸ List.cons_ne_nil t rest
      split
      · next layout =>
        rw [ahead, List.length_cons] at enough
        obtain ⟨places, attempts, body, errors⟩ :=
          @ih { c with rest } (Nat.le_of_succ_le_succ enough)
        exact ⟨places, .skip ahead layout attempts, body, errors⟩
      · next word =>
        have less := Cursor.resumed_lt some
        obtain ⟨places, attempts, body, errors⟩ := @ih c.resumed (by omega)
        refine ⟨c :: places, .attempt ahead word attempts, ?_⟩
        unfold Cursor.resumed at body errors
        rw [List.filterMap_cons, List.filterMap_cons, Cursor.declared?, Cursor.fault?]
        cases run : Parser.construct .declaration c with
        | ok n c' =>
          rw [run] at body errors
          exact ⟨congrArg (n :: ·) body, errors⟩
        | error e c' =>
          rw [run] at body errors
          exact ⟨body, congrArg (e :: ·) errors⟩

namespace Attempts

variable {c : Cursor} {places : List Cursor}

/-- Every attempt takes a token, so there are no more attempts than tokens. -/
theorem length_le (attempts : Attempts c places) : places.length ≤ c.rest.length := by
  induction attempts with
  | done => exact Nat.zero_le _
  | skip ahead _ _ ih =>
    rw [ahead, List.length_cons]
    exact Nat.le_succ_of_le ih
  | attempt ahead _ _ ih =>
    have less := Cursor.resumed_lt (ahead ▸ List.cons_ne_nil _ _)
    rw [List.length_cons]
    omega

end Attempts

/-- An attempt gives a declaration or a fault. -/
theorem length_outcomes (places : List Cursor) :
    (places.filterMap Cursor.declared?).length + (places.filterMap Cursor.fault?).length =
      places.length := by
  induction places with
  | nil => rfl
  | cons c places ih =>
    rw [List.filterMap_cons, List.filterMap_cons, Cursor.declared?, Cursor.fault?]
    cases Parser.construct .declaration c with
    | ok n c' =>
      simp only [List.length_cons]
      omega
    | error e c' =>
      simp only [List.length_cons]
      omega

/-! ### The order of faults -/

/-- What is left to be read up to the end of input and with it. -/
def Cursor.remaining (c : Cursor) : List Token := c.rest ++ [c.stop]

/-- What is left is what was taken and then what is still left. -/
theorem Moves.remaining_eq {c c' : Cursor} {used : List Token} (moves : Moves c c')
    (taken : c.rest = used ++ c'.rest) : c.remaining = used ++ c'.remaining := by
  unfold Cursor.remaining
  rw [taken, moves.stop_eq, List.append_assoc]

theorem Moves.remaining_sublist {c c' : Cursor} (moves : Moves c c') :
    c'.remaining.Sublist c.remaining := by
  obtain ⟨used, taken, -⟩ := moves.exists_used
  rw [moves.remaining_eq taken]
  exact List.sublist_append_right ..

theorem Cursor.upcoming_mem_remaining (c : Cursor) : c.upcoming ∈ c.remaining := by
  unfold upcoming remaining
  cases c.rest with
  | nil => exact List.mem_singleton_self _
  | cons t rest => exact List.mem_cons_self

/-- The token that is up next stands in front of all that is left. -/
theorem InTextOrder.upcoming_start {c : Cursor} (ordered : InTextOrder c.remaining) {t : Token}
    (there : t ∈ c.remaining) : c.upcoming.span.start ≤ t.span.start := by
  unfold Cursor.remaining at ordered there
  unfold Cursor.upcoming
  cases ahead : c.rest with
  | nil =>
    rw [ahead] at ordered there
    exact ordered.head_start there
  | cons u rest =>
    rw [ahead] at ordered there
    exact ordered.head_start there

/-- A place that is passed lies in front of everything that is left behind it. -/
theorem Passes.le {c c' : Cursor} {place : Position} (passes : Passes c c' place)
    (moves : Moves c c') (ordered : InTextOrder c.remaining) {t : Token}
    (there : t ∈ c'.remaining) : place ≤ t.span.start := by
  obtain ⟨used, u, taken, passed, rfl⟩ := passes
  rw [moves.remaining_eq taken] at ordered
  rcases List.mem_append.1 passed with before | next
  · exact ((List.pairwise_append.1 ordered.ordered).2.2 u before t there).start
  · obtain rfl := List.mem_singleton.1 next
    exact (ordered.of_sublist (List.sublist_append_right ..)).upcoming_start there

/-- A place that is passed is that of one of the tokens that were left. -/
theorem Passes.exists_mem {c c' : Cursor} {place : Position} (passes : Passes c c' place)
    (moves : Moves c c') : ∃ t ∈ c.remaining, t.span.start = place := by
  obtain ⟨used, t, taken, passed, start⟩ := passes
  refine ⟨t, ?_, start⟩
  rw [moves.remaining_eq taken]
  rcases List.mem_append.1 passed with before | next
  · exact List.mem_append_left _ before
  · obtain rfl := List.mem_singleton.1 next
    exact List.mem_append_right _ c'.upcoming_mem_remaining

theorem Cursor.recover_remaining (c : Cursor) : c.recover.remaining.Sublist c.remaining :=
  c.recover_suffix.sublist.append_right _

/-- Faults come in the order of the text, each at a token that was left to be read. -/
theorem Attempts.faults {c : Cursor} {places : List Cursor} (attempts : Attempts c places)
    (ordered : InTextOrder c.remaining) :
    (places.filterMap Cursor.fault?).Pairwise (·.span.start ≤ ·.span.start) ∧
      ∀ e ∈ places.filterMap Cursor.fault?, ∃ t ∈ c.remaining, t.span.start = e.span.start := by
  induction attempts with
  | done => exact ⟨.nil, List.forall_mem_nil _⟩
  | @skip c t rest places ahead _ _ ih =>
    have shorter : (Cursor.remaining { c with rest }).Sublist c.remaining := by
      unfold Cursor.remaining
      rw [ahead]
      exact List.sublist_cons_self ..
    obtain ⟨sorted, found⟩ := ih (ordered.of_sublist shorter)
    refine ⟨sorted, ?_⟩
    intro e member
    obtain ⟨u, there, start⟩ := found e member
    exact ⟨u, shorter.subset there, start⟩
  | @attempt c t rest places ahead _ _ ih =>
    have forward := (Parser.advances_construct .declaration).forward
    unfold Cursor.resumed at ih
    rw [List.filterMap_cons, Cursor.fault?]
    cases run : Parser.construct .declaration c with
    | ok n c' =>
      rw [run] at ih
      have behind := (forward.ok run).remaining_sublist
      obtain ⟨sorted, found⟩ := ih (ordered.of_sublist behind)
      refine ⟨sorted, ?_⟩
      intro e member
      obtain ⟨u, there, start⟩ := found e member
      exact ⟨u, behind.subset there, start⟩
    | error e c' =>
      rw [run] at ih
      have moves := forward.error run
      have passes := Parser.blames_construct .declaration c e c' run
      have later := c'.recover_remaining.trans moves.remaining_sublist
      obtain ⟨sorted, found⟩ := ih (ordered.of_sublist later)
      refine ⟨List.pairwise_cons.2 ⟨?_, sorted⟩, List.forall_mem_cons.2 ⟨?_, ?_⟩⟩
      · intro other member
        obtain ⟨u, there, start⟩ := found other member
        rw [← start]
        exact passes.le moves ordered (c'.recover_remaining.subset there)
      · exact passes.exists_mem moves
      · intro other member
        obtain ⟨u, there, start⟩ := found other member
        exact ⟨u, later.subset there, start⟩

/-- A tree and its diagnostics are what the attempts to read a declaration give. -/
theorem parse_attempts (tokens : List Token) : ∃ places, Attempts (.ofTokens tokens) places ∧
    (parse tokens).program.form = .program (places.filterMap Cursor.declared?) ∧
    (parse tokens).diagnostics = (places.filterMap Cursor.fault?).map (·.diagnostic) := by
  obtain ⟨places, attempts, body, errors⟩ :=
    topLevel_attempts _ (Nat.le_refl (Cursor.ofTokens tokens).rest.length)
  refine ⟨places, attempts, ?_, ?_⟩
  · rw [← body, parse_eq]
  · rw [← errors, parse_eq]

/-- Reading ends on all tokens. A declaration takes tokens wherever it is tried, at least one and
    none behind the end of input, and a tape is moved on over them; all loops end, the one at the
    top at the first end of input and without ever needing a way out; each attempt at the top gives
    a declaration or a single fault, so that there are no more of them than tokens, and the faults
    in a text come in its order. -/
theorem parse_progresses :
    (∀ c : Cursor, c.rest ≠ [] →
      let behind := Parser.placeAfter (Parser.construct .declaration c)
      ∃ used, used ≠ [] ∧ c.rest = used ++ behind.rest ∧ behind.last = used.getLastD c.last ∧
        behind.stop = c.stop) ∧
    (∀ t : Tape, TokenStream.atEnd t = false →
      let behind := Parser.placeAfter (Parser.construct .declaration t)
      ∃ used, used ≠ [] ∧ (∀ u ∈ used, u.kind ≠ .eof) ∧ used <+: t.tokens.drop t.current ∧
        behind.tokens = t.tokens ∧ behind.current = t.current + used.length) ∧
    (∀ (t t' : Tape) e, TokenStream.atEnd t = false →
      Parser.construct .declaration t = .error e t' →
      TokenStream.resumption t t' = TokenStream.synchronize (TokenStream.rounds t') t') ∧
    Parser.LoopsEnd ∧
    (∀ wayOut, Ends (programRound wayOut) fun c => topLevel c.rest c) ∧
    (∀ tokens, (TokenStream.readProgram (Tape.ofTokens tokens)).2.current =
      (tokens.takeWhile (·.kind ≠ .eof)).length) ∧
    (∀ tokens, ∃ places body, Attempts (.ofTokens tokens) places ∧
      (parse tokens).program.form = .program body ∧
      body = places.filterMap Cursor.declared? ∧
      (parse tokens).diagnostics = (places.filterMap Cursor.fault?).map (·.diagnostic) ∧
      body.length + (parse tokens).diagnostics.length ≤
        (tokens.takeWhile (·.kind ≠ .eof)).length) ∧
    ∀ source, (parse (lex source).tokens).diagnostics.Pairwise (·.span.start ≤ ·.span.start) := by
  refine ⟨?_, fun t => Tape.construct_takes, fun t t' e => Tape.resumption_of_fault,
    Parser.loopsEnd, topLevel_ends, Tape.current_readProgram, ?_, ?_⟩
  · intro c some
    exact Parser.construct_takes .declaration some
  · intro tokens
    obtain ⟨places, attempts, tree, diagnostics⟩ := parse_attempts tokens
    refine ⟨places, _, attempts, tree, rfl, diagnostics, ?_⟩
    rw [diagnostics, List.length_map, length_outcomes]
    exact attempts.length_le
  · intro source
    obtain ⟨places, attempts, -, diagnostics⟩ := parse_attempts (lex source).tokens
    have faults := attempts.faults (inTextOrder_lex source).ofTokens
    rw [diagnostics]
    exact List.pairwise_map.2 faults.1

/-- In front of a stray sign reading takes that sign. -/
theorem parse_progresses_stray :
    let sign := Token.silent .rightParen (.point .origin)
    let c := Cursor.ofTokens [sign]
    c.rest ≠ [] ∧ ∃ used, used ≠ [] ∧
      c.rest = used ++ (Parser.placeAfter (Parser.construct .declaration c)).rest := by
  intro sign c
  have some : c.rest ≠ [] := List.cons_ne_nil sign []
  obtain ⟨used, taken, split, -⟩ := parse_progresses.1 c some
  exact ⟨some, used, taken, split⟩

end TekLang
