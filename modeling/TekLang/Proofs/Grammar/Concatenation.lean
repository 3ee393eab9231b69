import TekLang.Proofs.Grammar.Balance
import TekLang.Proofs.Grammar.EchoStatement
import TekLang.Proofs.Grammar.ExpressionRoundTrip
import TekLang.Proofs.Token.Joining

/-!
# One text behind another

Two texts without faults, of which the first ends with a line feed, say one behind the other what
they say alone: no statement of the second becomes part of one of the first. There is one exception.
Behind the block of an if that has a value, operators are still looked for, so a first token of the
second text that goes on with an expression is taken for one of them.
-/

namespace TekLang

open Placed (anywhere)

/-! ## Where a text begins and ends -/

/-- The tokens in front of the end of a text: the last ends a line or a block. -/
theorem Layout.exists_front (layout : Layout) : ∃ front, layout.tokens = front ++ [layout.stop] ∧
    (∀ t ∈ front, t.kind ≠ .eof) ∧ ∀ t ∈ front.getLast?, t.kind.isLayout = true := by
  obtain ⟨front, tokens, words⟩ := layout.stop_tokens
  refine ⟨front, tokens, words, ?_⟩
  obtain rfl : front = layout.lines.flatMap LogicalLine.tokens ++ layout.closing := by
    rw [Layout.tokens, ← List.append_assoc] at tokens
    exact (List.append_cancel_right tokens).symm
  intro t last
  rw [Option.mem_def, List.getLast?_append] at last
  cases closing : layout.closing.getLast? with
  | some u =>
    rw [closing] at last
    cases last
    rw [layout.closes t (List.mem_of_getLast? closing)]
    rfl
  | none =>
    rw [closing, Option.none_or, List.getLast?_flatMap] at last
    obtain ⟨line, -, last⟩ := List.exists_of_findSome?_eq_some last
    exact (line.last_tokens t last).1

/-- The tokens of a text in front of the end of input: the last ends a line or a block, the first
    does not. -/
theorem exists_front (source : String) : ∃ front stop, (lex source).tokens = front ++ [stop] ∧
    stop.kind = .eof ∧ (∀ t ∈ front, t.kind ≠ .eof) ∧
      (∀ t ∈ front.getLast?, t.kind.isLayout = true) ∧
        ∀ t ∈ front.head?, t.kind ≠ .newline ∧ t.kind ≠ .outdent := by
  obtain ⟨layout, laid, -⟩ := exists_layout source
  obtain ⟨front, tokens, words, last⟩ := layout.exists_front
  refine ⟨front, layout.stop, laid.trans tokens, layout.stops, words, last, ?_⟩
  intro t first
  obtain ⟨others, rfl⟩ := List.head?_eq_some_iff.1 first
  refine ⟨layout.head_tokens t (by rw [tokens]; rfl), fun closes => ?_⟩
  have balanced := (balanced_lex source).1 [t] ⟨others ++ [layout.stop], by rw [laid, tokens]; rfl⟩
  simp [outdents, indents, closes] at balanced

namespace Parser

variable {c d : Cursor} {t : Token} {rest : List Token}

theorem begins_of_operand {inner : Construct → Parser Node} {c' : Cursor} {n : Node}
    (run : operand inner t c = .ok n c') :
    t.kind.onlyBegins = true ∨ t.kind.beginsOrJoins = true := by
  unfold operand at run
  generalize t.kind = kind at run ⊢
  cases kind <;> first | exact .inl rfl | exact .inr rfl | cases run

/-- A statement begins with a token that statements begin with. -/
theorem begins_of_construct {c' : Cursor} {n : Node} (ahead : c.rest = t :: rest)
    (run : construct .declaration c = .ok n c') :
    t.kind.onlyBegins = true ∨ t.kind.beginsOrJoins = true := by
  rw [construct_apply, ahead, constructWithin] at run
  rcases declarationWith_cases (constructWithin rest) t.kind with ⟨begins, -⟩ | reads
  · exact .inl begins
  · rw [reads c (Cursor.nextKind_of_rest_cons ahead)] at run
    obtain ⟨value, c₁, found, -⟩ := bind_eq_ok.1 run
    rw [expressionWith_of_rest_cons ahead] at found
    obtain ⟨first, c₂, found, -⟩ := bind_eq_ok.1 found
    exact begins_of_operand found

end Parser

/-! ## Whole programs -/

/-- The cursor `d` stands in front of tokens that say the same as those that `c` stands in front of,
    and then of the tokens `more`, whatever was read before. -/
structure Cursor.Leads (more : List Token) (c d : Cursor) : Prop where
  rest : d.rest.map Token.unplaced = (c.rest ++ more).map Token.unplaced
  closed : ∀ t ∈ c.rest.getLast?, t.kind.isLayout = true

namespace Cursor

variable {more : List Token} {c d : Cursor}

theorem Leads.heads (leads : c.Leads more d) (some : c.rest ≠ []) :
    { c with last := d.last }.Heads more d := by
  refine ⟨leads.rest, rfl, ?_⟩
  unfold Closed
  rw [List.getLastD_eq_getLast?, List.getLast?_eq_some_getLast some]
  exact leads.closed _ (List.getLast?_eq_some_getLast some)

theorem Heads.leads (heads : c.Heads more d) : c.Leads more d := by
  refine ⟨heads.rest, fun t last => ?_⟩
  have some := List.ne_nil_of_mem (List.mem_of_getLast? last)
  obtain ⟨u, last', layout⟩ := heads.closed.getLast? some
  rw [Option.mem_def, last'] at last
  cases last
  exact layout

/-- The next token is the same, and so is what is left behind it. -/
theorem Leads.ahead (leads : c.Leads more d) {t : Token} {rest : List Token}
    (here : c.rest = t :: rest) : ∃ u others, d.rest = u :: others ∧ u.kind = t.kind ∧
      { c with rest }.Leads more { d with rest := others } := by
  have both := leads.rest
  rw [here, List.cons_append, List.map_cons] at both
  obtain ⟨u, others, split, same, tail⟩ := List.map_eq_cons_iff.1 both
  refine ⟨u, others, split, Token.kind_eq_of_unplaced same, tail, fun v last => ?_⟩
  exact leads.closed v (here ▸ List.mem_getLast?_cons last)

end Cursor

/-- A statement is read again in front of more tokens that cannot go on with it. -/
theorem construct_leads {more : List Token} (follows : MayFollow more) {c d c' : Cursor}
    (leads : c.Leads more d) (some : c.rest ≠ []) {n : Node}
    (run : Parser.construct .declaration c = .ok n c') (settled : n.IsOver more c') :
    ∃ m d', Parser.construct .declaration d = .ok m d' ∧ m.unplaced = n.unplaced ∧
      c'.Leads more d' := by
  obtain ⟨t, rest, ahead⟩ := List.exists_cons_of_ne_nil some
  have elsewhere : ({ c with last := d.last } : Cursor).rest = t :: rest := ahead
  have moved : Parser.construct .declaration { c with last := d.last } = .ok n c' :=
    (Parser.construct_of_behind ahead elsewhere rfl).trans run
  obtain ⟨m, d', run', same, heads⟩ :=
    Parser.construct_repeats follows _ d n c' (leads.heads some) trivial moved settled
  exact ⟨m, d', run', same, heads.leads⟩

/-- A construct takes a token. -/
theorem length_rest_of_construct {c c' : Cursor} {n : Node} (some : c.rest ≠ [])
    (run : Parser.construct .declaration c = .ok n c') : c'.rest.length < c.rest.length := by
  have takes := (Parser.advances_construct .declaration).takes c some
  rwa [run] at takes

/-- The last statement of a program is over if the tokens behind cannot go on with it, and so is any
    other, which has more tokens of the program behind it. -/
theorem isOver_of_last {more loop : List Token} {n : Node} {c : Cursor}
    (settled : ∀ k ∈ (n :: (topLevel loop c).body).getLast?, k.EndsInConditional →
      (firstKind more).beginsOrJoins = false) : n.IsOver more c := by
  by_cases ended : c.rest = []
  · rw [topLevel_ended loop ended] at settled
    by_cases conditional : n.EndsInConditional
    · left
      intro joins
      rw [settled n rfl conditional] at joins
      cases joins
    · exact .inr conditional
  · exact .inl (Cursor.open_of_rest_ne_nil ended)

/-- A program without faults is read again in front of more tokens, which are left. -/
theorem topLevel_leads {more : List Token} (follows : MayFollow more) (loop loop' : List Token)
    {c d : Cursor} (leads : c.Leads more d) (enough : c.rest.length ≤ loop.length)
    (enough' : d.rest.length ≤ loop'.length) (clean : (topLevel loop c).errors = [])
    (settled : ∀ n ∈ (topLevel loop c).body.getLast?, n.EndsInConditional →
      (firstKind more).beginsOrJoins = false) :
    ∃ d' loop'', d'.rest.map Token.unplaced = more.map Token.unplaced ∧
      d'.rest.length ≤ loop''.length ∧
      (topLevel loop' d).errors = (topLevel loop'' d').errors ∧
      (topLevel loop' d).body.map Node.unplaced = (topLevel loop c).body.map Node.unplaced ++
        (topLevel loop'' d').body.map Node.unplaced := by
  induction loop generalizing c d loop' with
  | nil =>
    have ended : c.rest = [] := List.length_eq_zero_iff.1 (Nat.le_zero.1 enough)
    refine ⟨d, loop', ?_, enough', rfl, rfl⟩
    rw [leads.rest, ended, List.nil_append]
  | cons round loop ih =>
    cases ahead : c.rest with
    | nil =>
      refine ⟨d, loop', ?_, enough', rfl, ?_⟩
      · rw [leads.rest, ahead, List.nil_append]
      · rw [topLevel_ended _ ahead]
        rfl
    | cons t rest =>
      obtain ⟨u, others, ahead', same, leads'⟩ := leads.ahead ahead
      rw [ahead, List.length_cons] at enough
      cases loop' with
      | nil =>
        rw [ahead'] at enough'
        exact absurd enough' (Nat.not_succ_le_zero _)
      | cons round' loop' =>
        by_cases layout : t.kind = .newline ∨ t.kind = .outdent
        · rw [topLevel_layout ahead layout] at clean settled ⊢
          rw [topLevel_layout ahead' (same ▸ layout)]
          rw [ahead', List.length_cons] at enough'
          exact ih loop' leads' (Nat.le_of_succ_le_succ enough)
            (Nat.le_of_succ_le_succ enough') clean settled
        · rw [topLevel_construct ahead layout] at clean settled ⊢
          rw [topLevel_construct ahead' (same ▸ layout)]
          have some : c.rest ≠ [] := ahead ▸ List.cons_ne_nil t rest
          have some' : d.rest ≠ [] := ahead' ▸ List.cons_ne_nil u others
          cases run : Parser.construct .declaration c with
          | error e c₁ =>
            rw [run] at clean
            cases clean
          | ok n c₁ =>
            rw [run] at clean settled
            obtain ⟨m, d₁, run', alike, leads₁⟩ := construct_leads follows leads some run
              (isOver_of_last settled)
            have shorter := length_rest_of_construct some run
            have shorter' := length_rest_of_construct some' run'
            rw [ahead] at shorter
            simp only [List.length_cons] at shorter enough enough'
            obtain ⟨d', loop'', left, more_enough, errors, body⟩ := ih loop' leads₁ (by omega)
              (by omega) clean fun k last => settled k (List.mem_getLast?_cons last)
            rw [run']
            exact ⟨d', loop'', left, more_enough, errors,
              congrArg₂ List.cons alike body⟩

/-- What a text says is what is read from its tokens in front of the end of input. -/
theorem exists_program (source : String) : ∃ front stop,
    (lex source).tokens = front ++ [stop] ∧ stop.kind = .eof ∧
      (∀ t ∈ front.getLast?, t.kind.isLayout = true) ∧
      (∀ t ∈ front.head?, t.kind ≠ .newline ∧ t.kind ≠ .outdent) ∧
      (parse (lex source).tokens).program.children = (topLevel front ⟨front, stop, stop, 0⟩).body ∧
      ((parse (lex source).tokens).diagnostics = [] ↔
        (topLevel front ⟨front, stop, stop, 0⟩).errors = []) := by
  obtain ⟨front, stop, tokens, ends, words, last, first⟩ := exists_front source
  refine ⟨front, stop, tokens, ends, last, first, ?_, ?_⟩
  · rw [tokens, parse_eq, Cursor.ofTokens_append words ends]
    rfl
  · rw [tokens, parse_eq, Cursor.ofTokens_append words ends]
    exact List.map_eq_nil_iff

/-- Behind a text without faults no bracket is open. -/
theorem openBrackets_of_errors {source : String} {front : List Token} {stop : Token}
    (tokens : (lex source).tokens = front ++ [stop]) (ends : stop.kind = .eof)
    (clean : (topLevel front ⟨front, stop, stop, 0⟩).errors = []) :
    openBrackets (lex source).tokens = 0 := by
  have layout : ∀ t ∈ [stop], t.kind.isLayout = true := by simp [ends, TokenKind.isLayout]
  rw [tokens, openBrackets_append_layout layout]
  exact (topLevel_reads front (Nat.le_refl _)).closesBrackets clean 0

/-- A program without faults may follow another one. -/
theorem mayFollow_of_errors {front : List Token} {stop : Token}
    (first : ∀ t ∈ front.head?, t.kind ≠ .newline ∧ t.kind ≠ .outdent)
    (clean : (topLevel front ⟨front, stop, stop, 0⟩).errors = []) : MayFollow front := by
  cases front with
  | nil => exact .inl rfl
  | cons t rest =>
    have word : ¬(t.kind = .newline ∨ t.kind = .outdent) :=
      not_or.2 (first t rfl)
    rw [topLevel_construct rfl word] at clean
    cases run : Parser.construct .declaration (⟨t :: rest, stop, stop, 0⟩ : Cursor) with
    | error e c =>
      rw [run] at clean
      cases clean
    | ok n c => exact .inr (Parser.begins_of_construct rfl run)

/-- Two texts without faults, of which the first ends with a line feed, are read one behind the
    other as they are read alone, unless the first ends with the block of an if that has a value and
    the second begins with what goes on with an expression. -/
theorem parse_append (P Q : String) (feed : P.toList.getLast? = some '\n')
    (faultless : (lex P).diagnostics = []) (faultless' : (lex Q).diagnostics = [])
    (clean : (parse (lex P).tokens).diagnostics = [])
    (clean' : (parse (lex Q).tokens).diagnostics = [])
    (settled : ∀ n ∈ (parse (lex P).tokens).program.children.getLast?, n.EndsInConditional →
      (firstKind (lex Q).tokens).beginsOrJoins = false) :
    (lex (P ++ Q)).diagnostics = [] ∧ (parse (lex (P ++ Q)).tokens).diagnostics = [] ∧
      (parse (lex (P ++ Q)).tokens).program.children.map Node.unplaced =
        ((parse (lex P).tokens).program.children ++
          (parse (lex Q).tokens).program.children).map Node.unplaced := by
  obtain ⟨front, stop, tokens, ends, last, first, children, errors⟩ := exists_program P
  obtain ⟨front', stop', tokens', ends', last', first', children', errors'⟩ := exists_program Q
  obtain ⟨whole, final, tokens'', ends'', -, -, children'', errors''⟩ := exists_program (P ++ Q)
  have follows : MayFollow front' := mayFollow_of_errors first' (errors'.1 clean')
  have kind : firstKind (lex Q).tokens = firstKind front' := by
    rw [tokens']
    cases front' with
    | nil => exact ends'
    | cons => rfl
  have flush : ∀ t ∈ (lex Q).tokens.head?, t.kind ≠ .indent := by
    intro t head
    obtain ⟨others, begins⟩ := List.head?_eq_some_iff.1 head
    have next : firstKind front' = t.kind := by
      rw [← kind, begins]
      rfl
    rw [← next]
    exact follows.ne_of_not_joins (by decide) rfl rfl
  obtain ⟨none, front₁, stop₁, split, -, alike⟩ := lex_append feed
    (openBrackets_of_errors tokens ends (errors.1 clean)) faultless faultless' flush
  obtain ⟨rfl, -⟩ := List.append_inj' (tokens.symm.trans split) rfl
  have rest : whole.map Token.unplaced = (front ++ front').map Token.unplaced := by
    rw [tokens'', tokens', ← List.append_assoc, List.map_append, List.map_append] at alike
    exact (List.append_inj' alike rfl).1
  rw [children, kind] at settled
  obtain ⟨d, loop, left, enough, sameErrors, sameBody⟩ := topLevel_leads follows front whole
    (c := ⟨front, stop, stop, 0⟩) (d := ⟨whole, final, final, 0⟩) ⟨rest, last⟩ (Nat.le_refl _)
    (Nat.le_refl _) (errors.1 clean) settled
  have nothing : MayFollow [] := .inl rfl
  obtain ⟨d', loop', left', -, sameErrors', sameBody'⟩ := topLevel_leads nothing front' loop
    (c := ⟨front', stop', stop', 0⟩) ⟨by simpa using left, last'⟩ (Nat.le_refl _) enough
    (errors'.1 clean') fun _ _ _ => rfl
  rw [List.map_nil, List.map_eq_nil_iff] at left'
  rw [topLevel_ended loop' left'] at sameErrors' sameBody'
  refine ⟨none, errors''.2 (sameErrors.trans sameErrors'), ?_⟩
  rw [children'', children, children', sameBody, sameBody', List.map_append]
  simp

/-- A name on the line behind an if that has a value begins a statement of its own. -/
theorem parse_append_name :
    let P := "var v = if true\n  yield 1\nelse\n  yield 2\n"
    let Q := "v\n"
    P.toList.getLast? = some '\n' ∧ (lex (P ++ Q)).diagnostics = [] ∧
      (parse (lex (P ++ Q)).tokens).diagnostics = [] ∧
      (parse (lex (P ++ Q)).tokens).program.children.map Node.unplaced =
        ((parse (lex P).tokens).program.children ++
          (parse (lex Q).tokens).program.children).map Node.unplaced := by
  refine ⟨rfl, parse_append _ _ rfl ?_ ?_ ?_ ?_ fun _ _ _ => ?_⟩ <;> decide +kernel

/-- A sign on that line does not: what is behind it is taken away from the value of the if. -/
theorem not_parse_append_sign :
    let P := "var v = if true\n  yield 1\nelse\n  yield 2\n"
    let Q := "-1\n"
    P.toList.getLast? = some '\n' ∧ (lex P).diagnostics = [] ∧ (lex Q).diagnostics = [] ∧
      (parse (lex P).tokens).diagnostics = [] ∧ (parse (lex Q).tokens).diagnostics = [] ∧
      ¬((parse (lex (P ++ Q)).tokens).program.children.map Node.unplaced =
        ((parse (lex P).tokens).program.children ++
          (parse (lex Q).tokens).program.children).map Node.unplaced) := by
  refine ⟨rfl, by decide +kernel, by decide +kernel, by decide +kernel, by decide +kernel, ?_⟩
  intro same
  have lengths := congrArg List.length same
  rw [List.length_map, List.length_map, List.length_append] at lengths
  revert lengths
  decide +kernel

end TekLang
