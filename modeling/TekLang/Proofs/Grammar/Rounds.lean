import TekLang.Proofs.Grammar.Composition
import TekLang.Proofs.Grammar.Derivation

/-!
# Loops without a count

The loops of the grammar and its recursion run over a list of rounds. Here is what they do without
it: a loop is a solution of the equation that its round stands for, and the only one, because every
round takes a token before the next. So the rounds are never used up, and nothing that is read
depends on what would happen if they were.
-/

namespace TekLang

/-- The loop is what its rounds make of it and nothing else is. If the rounds went on forever
    somewhere, whatever one likes could be the result there, and there would be other solutions. -/
def Ends {σ : Type} (round : σ → σ) (loop : σ) : Prop :=
  ∀ other, round other = other ↔ other = loop

/-! ### Counted loops -/

variable {ι β : Type}

/-- A loop that is counted by the tokens left, of which no round goes on before it takes a token. -/
structure Counted (round : (ι → Cursor → β) → ι → Cursor → β)
    (loop : List Token → ι → Cursor → β) : Prop where
  last : ∀ other i c, c.rest = [] → round other i c = loop [] i c
  step : ∀ t rounds i c, loop (t :: rounds) i c = round (loop rounds) i c
  contracts : ∀ rounds other i c, c.rest ≠ [] →
    (∀ j d, d.rest.length < c.rest.length → other j d = loop rounds j d) →
    round other i c = round (loop rounds) i c

/-- The same for a loop that carries nothing along. -/
structure CountedPlain (round : (Cursor → β) → Cursor → β) (loop : List Token → Cursor → β) :
    Prop where
  last : ∀ other c, c.rest = [] → round other c = loop [] c
  step : ∀ t rounds c, loop (t :: rounds) c = round (loop rounds) c
  contracts : ∀ rounds other c, c.rest ≠ [] →
    (∀ d, d.rest.length < c.rest.length → other d = loop rounds d) →
    round other c = round (loop rounds) c

namespace Counted

variable {round : (ι → Cursor → β) → ι → Cursor → β} {loop : List Token → ι → Cursor → β}

/-- How many rounds there are does not matter as long as there are as many as tokens. -/
theorem enough (counted : Counted round loop) : ∀ rounds rounds' i c,
    c.rest.length ≤ rounds.length → c.rest.length ≤ rounds'.length →
    loop rounds i c = loop rounds' i c := by
  intro rounds
  induction rounds with
  | nil =>
    intro rounds' i c none _
    have ended : c.rest = [] := List.length_eq_zero_iff.1 (Nat.le_zero.1 none)
    cases rounds' with
    | nil => rfl
    | cons u rounds' => rw [counted.step, counted.last _ i c ended]
  | cons t rounds ih =>
    intro rounds' i c fewer fewer'
    by_cases ended : c.rest = []
    · cases rounds' with
      | nil => rw [counted.step, counted.last _ i c ended]
      | cons u rounds' =>
        rw [counted.step, counted.step, counted.last _ i c ended, counted.last _ i c ended]
    · cases rounds' with
      | nil => exact absurd (List.length_eq_zero_iff.1 (Nat.le_zero.1 fewer')) ended
      | cons u rounds' =>
        rw [counted.step, counted.step]
        refine counted.contracts rounds' _ i c ended ?_
        intro j d less
        rw [List.length_cons] at fewer fewer'
        exact ih rounds' j d (by omega) (by omega)

/-- Counted loops end. -/
theorem ends (counted : Counted round loop) : Ends round fun i c => loop c.rest i c := by
  -- Behind the first round the tokens that were left when it began are rounds enough.
  have behind : ∀ t rest (c : Cursor), c.rest = t :: rest → ∀ j d, d.rest.length < c.rest.length →
      loop d.rest j d = loop rest j d := by
    intro t rest c ahead j d less
    rw [ahead, List.length_cons] at less
    exact counted.enough _ _ j d (Nat.le_refl _) (by omega)
  intro other
  constructor
  · intro solves
    have same : ∀ n i c, c.rest.length ≤ n → other i c = loop c.rest i c := by
      intro n
      induction n with
      | zero =>
        intro i c none
        have ended : c.rest = [] := List.length_eq_zero_iff.1 (Nat.le_zero.1 none)
        rw [← solves, counted.last other i c ended, ended]
      | succ n ih =>
        intro i c fewer
        cases ahead : c.rest with
        | nil => rw [← solves, counted.last other i c ahead]
        | cons t rest =>
          rw [← solves, counted.step]
          refine counted.contracts rest other i c (ahead ▸ List.cons_ne_nil _ _) ?_
          intro j d less
          rw [ih j d (by omega), behind t rest c ahead j d less]
    funext i c
    exact same c.rest.length i c (Nat.le_refl _)
  · rintro rfl
    funext i c
    cases ahead : c.rest with
    | nil => exact counted.last _ i c ahead
    | cons t rest =>
      rw [counted.step]
      exact counted.contracts rest _ i c (ahead ▸ List.cons_ne_nil _ _) (behind t rest c ahead)

end Counted

namespace CountedPlain

variable {round : (Cursor → β) → Cursor → β} {loop : List Token → Cursor → β}

/-- Such a loop is one that carries along nothing of interest. -/
theorem counted (plain : CountedPlain round loop) :
    Counted (fun other (_ : Unit) => round (other ())) fun rounds _ => loop rounds where
  last other _ := plain.last (other ())
  step t rounds _ := plain.step t rounds
  contracts rounds other _ c some agrees := plain.contracts rounds (other ()) c some (agrees ())

theorem enough (plain : CountedPlain round loop) {rounds : List Token} {c : Cursor}
    (some : c.rest.length ≤ rounds.length) : loop rounds c = loop c.rest c :=
  plain.counted.enough rounds c.rest () c some (Nat.le_refl _)

theorem ends (plain : CountedPlain round loop) : Ends round fun c => loop c.rest c := by
  intro other
  constructor
  · intro solves
    exact congrFun ((plain.counted.ends fun _ => other).1 (funext fun _ => solves)) ()
  · intro same
    exact congrFun ((plain.counted.ends fun _ => other).2 (funext fun _ => same)) ()

end CountedPlain

namespace Parser

variable {α ι : Type}

/-! ### Lists -/

/-- One round of a list up to a token of the kind `close`; `others` is the rest of the loop. -/
def listRound (close : TokenKind) (item : Parser α) (separator : Parser Unit)
    (others : Parser (List α)) : Parser (List α) := do
  if ← accept close then
    return []
  let first ← item
  separator
  let others ← others
  return first :: others

/-- One round of what stands behind tokens of the kind `mark`. -/
def markRound (mark : TokenKind) (item : Parser α) (others : Parser (List α)) :
    Parser (List α) := do
  if ← accept mark then
    let first ← item
    let others ← others
    return first :: others
  else
    return []

/-- The parser takes a token whenever it succeeds. -/
def Takes (p : Parser α) : Prop := ∀ c a c', p c = .ok a c' → c'.rest.length < c.rest.length

theorem Takes.unlessAtEnd {item : Parser α} (takes : Takes item) (wanted : Wanted) :
    Takes (unlessAtEnd wanted item) := by
  intro c a c' run
  cases ahead : c.rest with
  | nil =>
    unfold Parser.unlessAtEnd at run
    rw [bind_of_ok (atEnd_of_rest_nil ahead)] at run
    exact absurd run not_fail_ok
  | cons t rest =>
    rw [unlessAtEnd_of_rest_cons ahead] at run
    rw [← ahead]
    exact takes c a c' run

theorem Forward.length_le {p : Parser α} (forward : Forward p) {c c' : Cursor} {a : α}
    (run : p c = .ok a c') : c'.rest.length ≤ c.rest.length :=
  (forward.ok run).rest_suffix.length_le

theorem accept_atEnd {c : Cursor} (ended : c.rest = []) {kind : TokenKind} (word : kind ≠ .eof) :
    accept kind c = .ok false c := by
  refine accept_of_ne ?_
  rw [Cursor.nextKind_of_rest_nil ended]
  exact word.symm

/-- A list whose items take tokens ends, also where its closing token never comes. -/
theorem itemsUntil_counted {close : TokenKind} (word : close ≠ .eof) {item : Parser α}
    (takes : Takes item) {separator : Parser Unit} (forward : Forward separator) :
    CountedPlain (listRound close item separator) (itemsUntil close item separator) := by
  refine ⟨?_, fun t rounds c => rfl, ?_⟩
  · intro other c ended
    unfold listRound
    rw [bind_of_ok (accept_atEnd ended word)]
    refine bind_congr_ok ?_
    intro a c' run
    have less := takes c a c' run
    rw [ended] at less
    exact absurd less (Nat.not_lt_zero _)
  · intro rounds other c _ agrees
    refine bind_congr_ok ?_
    intro closed c₁ asked
    cases closed with
    | true => rfl
    | false =>
      refine bind_congr_ok ?_
      intro first c₂ found
      refine bind_congr_ok ?_
      intro _ c₃ separated
      have less := takes c₁ first c₂ found
      have le := (Forward.accept close).length_le asked
      have le' := forward.length_le separated
      exact bind_congr_run (agrees c₃ (by omega))

theorem sequence_ends {close : TokenKind} (word : close ≠ .eof) {item : Parser α}
    (takes : Takes item) : Ends (listRound close item (pure ())) (sequence close item) :=
  (itemsUntil_counted word takes (.pure ())).ends

theorem Forward.comma (close : TokenKind) (setting : Setting) : Forward (comma close setting) :=
  .bind .nextKind fun _ => .ite (.bind (.expectAs _ _ _) fun _ => .pure _) (.pure _)

theorem commaSequence_ends {close : TokenKind} (word : close ≠ .eof) {item : Parser α}
    (takes : Takes item) (setting : Setting) :
    Ends (listRound close item (comma close setting)) (commaSequence close setting item) :=
  (itemsUntil_counted word takes (.comma close setting)).ends

/-- Whatever stands behind each mark, the marks come to an end. -/
theorem itemsAfter_counted {mark : TokenKind} (word : mark ≠ .eof) {item : Parser α}
    (forward : Forward item) : CountedPlain (markRound mark item) (itemsAfter mark item) := by
  refine ⟨?_, fun t rounds c => rfl, ?_⟩
  · intro other c ended
    unfold markRound
    rw [bind_of_ok (accept_atEnd ended word)]
    rfl
  · intro rounds other c _ agrees
    refine bind_congr_ok ?_
    intro marked c₁ asked
    cases marked with
    | false => rfl
    | true =>
      refine bind_congr_ok ?_
      intro first c₂ found
      obtain ⟨-, t, -, reads⟩ | ⟨⟨⟩, -⟩ := accept_ok asked word
      have less := reads.rest_lt (List.cons_ne_nil _ _)
      have le := forward.length_le found
      exact bind_congr_run (agrees c₂ (by omega))

theorem eachAfter_ends {mark : TokenKind} (word : mark ≠ .eof) {item : Parser α}
    (forward : Forward item) : Ends (markRound mark item) (eachAfter mark item) :=
  (itemsAfter_counted word forward).ends

/-! ### Operators -/

/-- One round of the operators behind an operand; `others` is the rest of the loop. -/
def operatorRound (inner : Construct → Parser Node) (level : Precedence)
    (others : Node → Parser Node) (left : Node) : Parser Node := do
  if level ≤ .ofOperator (← nextKind) then
    let operator ← advance
    others (← extend inner left operator)
  else
    return left

/-- The operators behind an operand. -/
def operatorsBehind (inner : Construct → Parser Node) (level : Precedence) (left : Node) :
    Parser Node := do
  operators inner level (← get).rest left

/-- The end of input is no operator, so operators come to an end. -/
theorem operators_counted {inner : Construct → Parser Node} (forward : ∀ k, Forward (inner k))
    {level : Precedence} (askable : .assignment ≤ level) :
    Counted (operatorRound inner level) (operators inner level) := by
  refine ⟨?_, fun t rounds left c => rfl, ?_⟩
  · intro other left c ended
    have loose : ¬level ≤ .ofOperator c.nextKind := by
      intro binds
      rw [Cursor.nextKind_of_rest_nil ended] at binds
      exact absurd (Precedence.le_trans askable binds) (by decide)
    unfold operatorRound
    rw [bind_of_ok (nextKind_apply c), if_neg loose]
    rfl
  · intro rounds other left c some agrees
    obtain ⟨t, rest, ahead⟩ := List.exists_cons_of_ne_nil some
    unfold operatorRound
    rw [bind_of_ok (nextKind_apply c), bind_of_ok (nextKind_apply c)]
    split
    · rw [bind_of_ok (advance_of_rest_cons ahead), bind_of_ok (advance_of_rest_cons ahead)]
      refine bind_congr_ok ?_
      intro larger c' extended
      have le := (Forward.of_composed (.extend left t trivial) forward).length_le extended
      rw [Cursor.rest_behind] at le
      refine agrees larger c' ?_
      rw [ahead, List.length_cons]
      omega
    · rfl

theorem operators_ends {inner : Construct → Parser Node} (forward : ∀ k, Forward (inner k))
    {level : Precedence} (askable : .assignment ≤ level) :
    Ends (operatorRound inner level) (operatorsBehind inner level) :=
  (operators_counted forward askable).ends

/-! ### Types and constructs within one another -/

/-- A reader depends on those that it asks only as far as they read what it has not read yet. -/
theorem Composed.agree {inner inner' : ι → Parser Node} {known : Position → Prop} {p q : Parser α}
    (composed : Composed inner inner' known p q) (forward : ∀ k, Forward (inner k)) {n : Nat}
    (agrees : ∀ k d, d.rest.length < n → inner' k d = inner k d) {c : Cursor}
    (less : c.rest.length < n) : q c = p c := by
  induction composed generalizing c with
  | steady => rfl
  | fail => rfl
  | failAt => rfl
  | inner k => exact agrees k c less
  | @andThen _ _ _ p q f g first _ ih_first ih_second =>
    rw [bind_apply, bind_apply, ih_first less]
    cases run : p c with
    | ok a c' =>
      have le := (first.forward forward).length_le run
      exact ih_second a c c' run (by omega)
    | error e c' => rfl

theorem TokenFirst.agree {inner inner' : Construct → Parser Node} {p q : Parser Node}
    (opens : TokenFirst inner inner' p q) (forward : ∀ k, Forward (inner k)) {c : Cursor}
    (some : c.rest ≠ [])
    (agrees : ∀ k d, d.rest.length < c.rest.length → inner' k d = inner k d) : q c = p c := by
  obtain ⟨t, rest, ahead⟩ := List.exists_cons_of_ne_nil some
  obtain ⟨f, g, here, here', composed⟩ := opens c t rest ahead
  rw [here, here']
  refine composed.agree forward agrees ?_
  rw [Cursor.rest_behind, ahead, List.length_cons]
  exact Nat.lt_succ_self _

/-- However deep constructs are nested, they end. -/
theorem constructWithin_counted : Counted constructWith constructWithin := by
  refine ⟨?_, ?_, ?_⟩
  · intro other k c ended
    exact constructWith_atEnd k ended
  · intro t rounds k c
    rw [constructWithin_cons]
  · intro rounds other k c some agrees
    exact (TokenFirst.constructWith k).agree (forward_constructWithin rounds) some agrees

theorem construct_ends : Ends constructWith construct := constructWithin_counted.ends

theorem forward_typeWithin (rounds : List Token) : Forward (typeWithin rounds) := by
  induction rounds with
  | nil => exact .fail _
  | cons round rounds ih =>
    exact @Forward.of_composed Unit _ (fun _ => typeWithin rounds) _ (.typeWith (.inner ()))
      fun _ => ih

theorem Forward.typeRef : Forward typeRef := .bind .get fun c => forward_typeWithin c.rest

/-- However deep types are nested, they end. -/
theorem typeWithin_counted : CountedPlain typeWith (typeWithin : List Token → Parser Node) := by
  refine ⟨?_, fun t rounds c => rfl, ?_⟩
  · intro other c ended
    have next : c.nextKind ≠ .identifier := by
      rw [Cursor.nextKind_of_rest_nil ended]
      decide
    unfold typeWith expectAs
    rw [bind_apply, bind_of_ok (nextKind_apply c), if_neg next]
    rfl
  · intro rounds other c some agrees
    refine bind_congr_ok ?_
    intro name c' found
    obtain ⟨items, ⟨_⟩, reads⟩ := expectAs_follows (by decide) _ _ c name c' found
    have less := reads.rest_lt (List.cons_ne_nil _ _)
    refine @Composed.agree _ Unit (fun _ => typeWithin rounds) (fun _ => other) (fun _ => False)
      _ _ ?_ (fun _ => forward_typeWithin rounds) _ (fun _ d => agrees d) _ less
    exact .bind (.eachAfter (.expectName _) _) fun _ =>
      .bind (.optionalList (.genericArguments (.inner ())) _) fun _ =>
        .bind (.eachAfter (.expect _ _) _) fun _ => .spanned _ _

theorem typeRef_ends : Ends typeWith (typeRef : Parser Node) := typeWithin_counted.ends

/-! ### The items of lists -/

/-- What the lists of the grammar are lists of. -/
def listItems : List (Parser Node) :=
  [unlessAtEnd .endOfBlock (construct .declaration),
    unlessAtEnd .endOfClass (classMember construct),
    switchCase construct,
    unlessAtEnd (.token .rightParen) (expression construct),
    unlessAtEnd (.token .rightBracket) (expression construct),
    typeRef, genericParameter, parameter, importedName]

theorem Follows.takes {item : Parser Node} {phrase : Phrase}
    (follows : Follows item (IsPart phrase)) : Takes item :=
  fun _ _ _ run => (follows.reads run).rest_lt (List.cons_ne_nil _ _)

theorem takes_of_mem_listItems : ∀ item ∈ listItems, Takes item := by
  have grammar := construct_follows
  have value := grammar.expression
  simp only [listItems, List.forall_mem_cons]
  refine ⟨?_, ?_, ?_, ?_, ?_, ?_, ?_, ?_, ?_, List.forall_mem_nil _⟩
  · exact (unlessAtEnd_follows grammar.declaration _).takes
  · exact (unlessAtEnd_follows (classMember_follows grammar) _).takes
  · exact (switchCase_follows grammar).takes
  · exact (unlessAtEnd_follows value _).takes
  · exact (unlessAtEnd_follows value _).takes
  · exact typeRef_follows.takes
  · exact genericParameter_follows.takes
  · exact parameter_follows.takes
  · exact importedName_follows.takes

/-- Every loop of the grammar ends on whatever tokens there are, and so does its recursion. -/
structure LoopsEnd : Prop where
  constructs : Ends constructWith construct
  types : Ends typeWith (typeRef : Parser Node)
  operators : ∀ level, .assignment ≤ level →
    Ends (operatorRound construct level) (operatorsBehind construct level)
  sequences : ∀ item ∈ listItems, ∀ close, close ≠ .eof →
    Ends (listRound close item (pure ())) (sequence close item)
  commaSequences : ∀ item ∈ listItems, ∀ close, close ≠ .eof → ∀ setting,
    Ends (listRound close item (comma close setting)) (commaSequence close setting item)
  marks : ∀ {α : Type} (item : Parser α), Forward item → ∀ mark, mark ≠ .eof →
    Ends (markRound mark item) (eachAfter mark item)

theorem loopsEnd : LoopsEnd where
  constructs := construct_ends
  types := typeRef_ends
  operators _ := operators_ends fun k => (advances_construct k).forward
  sequences item there _ word := sequence_ends word (takes_of_mem_listItems item there)
  commaSequences item there _ word := commaSequence_ends word (takes_of_mem_listItems item there)
  marks _ forward _ word := eachAfter_ends word forward

end Parser

end TekLang
