import TekLang.Proofs.Grammar.ExpressionRoundTrip
import TekLang.Proofs.Grammar.Levels
import TekLang.Proofs.Grammar.Restart
import TekLang.Proofs.Grammar.Restoring

/-!
# Calls with type arguments

A less-than sign opens the type arguments of a call if what stands in front of it can be called and
types, a closing bracket and a parenthesis come behind it. But the sign is of the level of
comparisons, though calls are tighter. So the call is read as one operand only where comparisons
are: by itself, as a value that is assigned, and to the right of `or`, `and` and the signs of
equality. In all other places the operand ends in front of the less-than sign.
-/

namespace TekLang

namespace Parser

/-! ### Looking for the parenthesis -/

/-- The kinds of tokens that the search does not stop at. -/
def skippedKinds : List TokenKind := [.identifier, .dot, .comma, .leftBracket, .rightBracket]

section Ahead

variable {t : Token} {rest : List Token} {depth : Nat}

theorem closesBeforeParen_skip (skipped : t.kind ∈ skippedKinds) :
    closesBeforeParen depth (t :: rest) = closesBeforeParen depth rest := by
  rw [closesBeforeParen]
  revert skipped
  cases t.kind <;> first | (intro; rfl) | (intro skipped; exact absurd skipped (by decide))

theorem closesBeforeParen_less (opens : t.kind = .less) :
    closesBeforeParen depth (t :: rest) = closesBeforeParen (depth + 1) rest := by
  simp only [closesBeforeParen, opens]

theorem closesBeforeParen_greater (closes : t.kind = .greater) (within : 0 < depth) :
    closesBeforeParen (depth + 1) (t :: rest) = closesBeforeParen depth rest := by
  simp only [closesBeforeParen, closes]
  exact if_neg (by omega)

theorem closesBeforeParen_outermost {u : Token} (closes : t.kind = .greater)
    (calls : u.kind = .leftParen) : closesBeforeParen 1 (t :: u :: rest) = true := by
  simp [closesBeforeParen, closes, calls]

end Ahead

/-- The search for a parenthesis goes on behind the tokens as if they were not there. -/
def PassedOver (ts : List Token) : Prop :=
  ∀ depth more, 0 < depth → closesBeforeParen depth (ts ++ more) = closesBeforeParen depth more

namespace PassedOver

variable {ts us : List Token} {t : Token}

theorem nil : PassedOver [] := fun _ _ _ => rfl

theorem append (first : PassedOver ts) (second : PassedOver us) : PassedOver (ts ++ us) := by
  intro depth more within
  rw [List.append_assoc, first depth _ within, second depth more within]

theorem cons (skipped : t.kind ∈ skippedKinds) (others : PassedOver ts) :
    PassedOver (t :: ts) := by
  intro depth more within
  rw [List.cons_append, closesBeforeParen_skip skipped, others depth more within]

theorem inAngles {less greater : Token} (opens : less.kind = .less)
    (closes : greater.kind = .greater) (content : PassedOver ts) :
    PassedOver (less :: (ts ++ [greater])) := by
  intro depth more within
  rw [List.cons_append, List.append_assoc, closesBeforeParen_less opens,
    content _ _ (Nat.succ_pos depth)]
  exact closesBeforeParen_greater closes within

/-- The names of a path and the brackets of an array type. -/
theorem eachAfter {mark kind : TokenKind} {as : List Token} {items : List Item}
    (marks : mark ∈ skippedKinds) (words : kind ∈ skippedKinds)
    (each : EachAfter mark (IsWord kind) as items) (written : WritesAll items ts) :
    PassedOver ts := by
  induction each generalizing ts with
  | nil =>
    cases written
    exact nil
  | cons marked word _ ih =>
    obtain ⟨us, rfl, tail⟩ := written.word_inv
    cases word with
    | mk same =>
      obtain ⟨vs, rfl, others⟩ := tail.word_inv
      exact cons (marked ▸ marks) (cons (same ▸ words) (ih others))

/-- Types with commas between them end with the bracket that closes them. -/
theorem listed {types : List Node} {items : List Item} (listed : Listed .type .greater types items)
    (written : WritesAll items ts)
    (within : ∀ n us, us.length ≤ ts.length → Writes .type n us → PassedOver us) :
    ∃ us greater, ts = us ++ [greater] ∧ greater.kind = .greater ∧ PassedOver us := by
  induction listed generalizing ts with
  | @close greater closes =>
    obtain ⟨none, rfl, nothing⟩ := written.word_inv
    cases nothing
    exact ⟨[], greater, rfl, closes, nil⟩
  | @last n greater closes =>
    obtain ⟨us, tail, rfl, type, bracket⟩ := written.part_inv
    obtain ⟨none, rfl, nothing⟩ := bracket.word_inv
    cases nothing
    refine ⟨us, greater, rfl, closes, within n us ?_ type⟩
    rw [List.length_append]
    exact Nat.le_add_right _ _
  | @cons n types items comma separates _ ih =>
    obtain ⟨us, tail, rfl, type, behind⟩ := written.part_inv
    obtain ⟨vs, rfl, others⟩ := behind.word_inv
    rw [List.length_append, List.length_cons] at within
    obtain ⟨ws, greater, rfl, closes, passed⟩ := ih others fun m xs fewer => within m xs (by omega)
    refine ⟨us ++ comma :: ws, greater, by simp, closes, ?_⟩
    exact append (within n us (by omega) type) (cons (by rw [separates]; decide) passed)

/-- However types are nested, the search passes over them. -/
theorem type {n : Node} (written : Writes .type n ts) : PassedOver ts := by
  induction length : ts.length using Nat.strong_induction_on generalizing n ts with
  | _ length ih =>
    subst length
    cases written with
    | phrase layout words =>
      cases layout with
      | typeRef named path arguments dimensions =>
        obtain ⟨tail, rfl, behindName⟩ := words.word_inv
        obtain ⟨dots, tail, rfl, path_, behindPath⟩ := behindName.append_inv
        obtain ⟨angles, brackets, rfl, arguments_, dimensions_⟩ := behindPath.append_inv
        have before := eachAfter (by decide) (by decide) path path_
        have behind := eachAfter (by decide) (by decide) dimensions dimensions_
        refine cons (by rw [named]; decide) (append before (append ?_ behind))
        cases arguments with
        | none =>
          cases arguments_
          exact nil
        | @some less _ _ opens types =>
          obtain ⟨content, rfl, behindLess⟩ := arguments_.word_inv
          have within m us (fewer : us.length ≤ content.length) (type : Writes .type m us) :
              PassedOver us := ih us.length (by simp; omega) type rfl
          obtain ⟨us, greater, rfl, closes, passed⟩ := listed types behindLess within
          exact inAngles opens closes passed

end PassedOver

/-! ### Reading on at another level -/

/-- What operators of a tight level make of an operand is the operand of those of a looser one. -/
theorem operatorsBehind_looser {inner : Construct → Parser Node} (forward : ∀ k, Forward (inner k))
    {level tight : Precedence} (askable : .assignment ≤ level) (looser : level ≤ tight)
    {left left' : Node} {c c' : Cursor}
    (run : operatorsBehind inner tight left c = .ok left' c') :
    operatorsBehind inner level left c = operatorsBehind inner level left' c' := by
  have round {level : Precedence} (askable : .assignment ≤ level) (left : Node) (c : Cursor) :
      operatorsBehind inner level left c =
        operatorRound inner level (operatorsBehind inner level) left c :=
    (congrFun (congrFun ((operators_ends forward askable _).2 rfl) left) c).symm
  induction length : c.rest.length using Nat.strong_induction_on generalizing left c with
  | _ length ih =>
    subst length
    rw [round (Precedence.le_trans askable looser), operatorRound,
      bind_of_ok (nextKind_apply c)] at run
    split at run
    · next binds =>
      obtain ⟨t, rest, ahead⟩ := exists_cons_of_binds (Precedence.le_trans askable looser) binds
      rw [bind_of_ok (advance_of_rest_cons ahead)] at run
      obtain ⟨larger, c₁, extended, run₁⟩ := bind_eq_ok.1 run
      have le := (Forward.of_composed (.extend left t trivial) forward).length_le extended
      rw [Cursor.rest_behind] at le
      rw [round askable, operatorRound, bind_of_ok (nextKind_apply c),
        if_pos (Precedence.le_trans looser binds), bind_of_ok (advance_of_rest_cons ahead),
        bind_of_ok extended]
      exact ih c₁.rest.length (by rw [ahead, List.length_cons]; omega) run₁ rfl
    · cases run
      rfl

theorem construct_eq (k : Construct) (c : Cursor) : construct k c = constructWith construct k c :=
  (congrFun (congrFun ((construct_ends construct).2 rfl) k) c).symm

/-- An expression that was read at a tight level is the first operand at a looser one. -/
theorem construct_looser {level tight : Precedence} (askable : .assignment ≤ level)
    (looser : level ≤ tight) {n : Node} {c c' : Cursor}
    (run : construct (.expression tight) c = .ok n c') :
    construct (.expression level) c = operatorsBehind construct level n c' := by
  rw [construct_eq, constructWith] at run ⊢
  cases ahead : c.rest with
  | nil =>
    rw [expressionWith_atEnd ahead] at run
    exact absurd run not_fail_ok
  | cons t rest =>
    rw [expressionWith_of_rest_cons ahead] at run ⊢
    obtain ⟨first, c₁, found, run₁⟩ := bind_eq_ok.1 run
    rw [bind_of_ok found]
    exact operatorsBehind_looser (fun k => (advances_construct k).forward) askable looser run₁

theorem isGenericCallee_of_bare_eq {a b : Node} (same : a.bare = b.bare) :
    isGenericCallee a.form = isGenericCallee b.form := by
  have forms := Node.map_form_eq_of_bare_eq same
  have kept : ∀ form : Form Node, isGenericCallee (form.map Node.bare) = isGenericCallee form := by
    intro form
    cases form <;> rfl
  rw [← kept a.form, ← kept b.form, forms]

end Parser

open TekLang.Parser

/-! ### Calls -/

/-- What a call with type arguments is written with: what is called, a less-than sign, the types and
    their closing bracket, a parenthesis, and the arguments and their closing parenthesis. -/
structure GenericCall where
  callee : Node
  calleeTokens : List Token
  less : Token
  types : List Node
  typeTokens : List Token
  paren : Token
  argTokens : List Token
  spelled : Spells callee calleeTokens
  grouped : callee.Grouped
  callable : isGenericCallee callee.form = true
  opens : less.kind = .less
  listed : ∃ items, Listed .type .greater types items ∧ WritesAll items typeTokens
  calls : paren.kind = .leftParen

namespace GenericCall

variable (g : GenericCall) {args : List Node} {more : List Token} {c : Cursor}

/-- The tokens behind what is called, and those behind the call. -/
def behindCallee (more : List Token) : List Token :=
  g.less :: (g.typeTokens ++ g.paren :: (g.argTokens ++ more))

/-- The call with its arguments. -/
def call (args : List Node) : Node := ⟨0, default, .call g.callee g.types args⟩

/-- The call begins at the cursor, behind it come the tokens `more`, and `args` is what the tokens
    of the arguments are read as there. -/
structure Stands (args : List Node) (more : List Token) (c : Cursor) : Prop where
  here : c.rest = g.calleeTokens ++ g.behindCallee more
  read : ∃ d : Cursor, arguments construct .rightParen ⟨g.argTokens ++ more, c.stop, g.paren, 0⟩ =
    .ok args d ∧ d.rest = more

variable {g}

/-- Behind the types the search comes to the parenthesis. -/
theorem closesBeforeParen_types (rest : List Token) :
    closesBeforeParen 1 (g.typeTokens ++ g.paren :: rest) = true := by
  obtain ⟨items, listed, written⟩ := g.listed
  obtain ⟨us, greater, same, closes, passed⟩ :=
    PassedOver.listed listed written fun _ _ _ type => .type type
  rw [same, List.append_assoc, passed 1 _ Nat.one_pos]
  exact closesBeforeParen_outermost closes g.calls

/-- The arguments do not depend on how many nodes were made before. -/
theorem arguments_countingFrom {c d : Cursor} {args : List Node} {close : TokenKind}
    (word : close ≠ .eof) (run : arguments construct close c = .ok args d) (count : NodeId) :
    ∃ args' d', arguments construct close { c with nextId := c.nextId + count } = .ok args' d' ∧
      args'.map Node.bare = args.map Node.bare ∧ d'.rest = d.rest := by
  have same : Simulates (Translation.countingFrom count).simulation (arguments construct close)
      (arguments construct close) :=
    .arguments Simulates.grammar word
  have counted := same.translated c
  rw [c.translated_countingFrom, run] at counted
  refine ⟨_, _, counted, ?_, List.map_id d.rest⟩
  change (args.map _).map _ = _
  rw [List.map_map]
  refine List.map_congr_left fun n _ => ?_
  rw [Function.comp_apply, n.translated_countingFrom, n.bare_renumbered]

/-- Behind what is called the call is read up to its closing parenthesis. -/
theorem Stands.extend {left : Node} {c d : Cursor} (stands : g.Stands args more c)
    (same : left.bare = g.callee.bare) (stop : d.stop = c.stop)
    (here : d.rest = g.typeTokens ++ g.paren :: (g.argTokens ++ more)) :
    ∃ call d', extend construct left g.less d = .ok call d' ∧ call.bare = (g.call args).bare ∧
      d'.rest = more := by
  obtain ⟨items, listed, written⟩ := g.listed
  have typesRead : Restores d.rest.length (List.map Node.bare) items
      (g.paren :: (g.argTokens ++ more)) (genericArguments typeRef) g.types := by
    refine .commaSequence listed _ (by decide) (by decide) fun n rest next => typeRef_restores ?_
    rcases next with next | next <;> (rw [next]; decide)
  obtain ⟨types, d₁, runTypes, sameTypes, rest₁⟩ :=
    typesRead g.typeTokens d written here (Nat.le_refl _)
  have forward : Forward (genericArguments typeRef) :=
    .commaSequence .typeRef _ _
  have moves := forward.ok runTypes
  obtain ⟨args₀, runArgs₀, rest₀⟩ := stands.read
  obtain ⟨args', d₂, runArgs, sameArgs, rest₂⟩ := 
    arguments_countingFrom (by decide) runArgs₀ d₁.nextId
  have open_ := expectAs_of_kind rest₁ g.calls (.token .leftParen) (.after .genericArguments)
  have behind : d₁.behind g.paren (g.argTokens ++ more) =
      ⟨g.argTokens ++ more, c.stop, g.paren, 0 + d₁.nextId⟩ := by
    rw [Cursor.behind, moves.stop_eq, stop, Nat.zero_add]
  have ahead : (isGenericCallee left.form && closesBeforeParen 1 d.rest) = true := by
    rw [isGenericCallee_of_bare_eq same, g.callable, here, closesBeforeParen_types]
    rfl
  refine ⟨⟨d₂.nextId, left.span.through d₂.last.span, .call left types args'⟩, d₂.numbered, ?_, ?_,
    rest₂.trans rest₀⟩
  · simp only [Parser.extend, g.opens]
    unfold lessThan expect
    rw [get_bind, TokenStream.startsGenericCall_cursor, if_pos ahead, bind_of_ok runTypes,
      bind_of_ok open_, behind]
    unfold Parser.call
    rw [bind_of_ok runArgs]
    rfl
  · rw [call, Node.bare_mk, Node.bare_mk, Form.map, Form.map, same, sameTypes, sameArgs]

/-- At the level of calls the callee is read and nothing more. -/
theorem Stands.callee {c : Cursor} (stands : g.Stands args more c) :
    ∃ callee d, construct (.expression .call) c = .ok callee d ∧ callee.bare = g.callee.bare ∧
      d.rest = g.behindCallee more ∧ d.stop = c.stop := by
  have weak : .ofOperator g.less.kind < Precedence.call := by
    rw [g.opens]
    decide
  have tight := call_le_level (isAssignable_of_isGenericCallee g.callable)
  obtain ⟨callee, d, same, rest, run⟩ :=
    (g.spelled.readsAs g.grouped).construct stands.here (Nat.le_refl c.rest.length) tight weak
  exact ⟨callee, d, run, same, rest, ((advances_construct _).forward.ok run).stop_eq⟩

/-- At the level of comparisons and at looser ones the call is read. -/
theorem Stands.loose {c : Cursor} (stands : g.Stands args more c) {level : Precedence}
    (askable : .assignment ≤ level) (loose : level ≤ .comparison)
    (weak : .ofOperator (firstKind more) < level) :
    ∃ call d, construct (.expression level) c = .ok call d ∧ call.bare = (g.call args).bare ∧
      d.rest = more := by
  obtain ⟨callee, c₁, run, same, rest, stop⟩ := stands.callee
  obtain ⟨call, d, extended, sameCall, left⟩ :=
    stands.extend same (show (c₁.behind g.less _).stop = c.stop from stop) rfl
  have binds : level ≤ .ofOperator g.less.kind := by
    rw [g.opens]
    exact loose
  have ends : .ofOperator d.nextKind < level := by
    rw [Cursor.nextKind_eq, left]
    exact weak
  refine ⟨call, d, ?_, sameCall, left⟩
  rw [construct_looser askable (Precedence.le_trans loose (by decide)) run, operatorsBehind,
    get_bind, rest, behindCallee, operators_of_le rest binds, bind_of_ok extended,
    operators_of_lt ends]

/-- At tighter levels what is called is read alone. -/
theorem Stands.tight {c : Cursor} (stands : g.Stands args more c) {level : Precedence}
    (tight : .comparison < level) (askable : level ≤ .call) :
    ∃ callee d, construct (.expression level) c = .ok callee d ∧ callee.bare = g.callee.bare ∧
      d.rest = g.behindCallee more := by
  obtain ⟨callee, d, run, same, rest, -⟩ := stands.callee
  have ends : .ofOperator d.nextKind < level := by
    rw [Cursor.nextKind_of_rest_cons rest, g.opens]
    exact tight
  have atLeast : .assignment ≤ level := Nat.le_of_lt (Nat.lt_of_le_of_lt (by decide) tight)
  refine ⟨callee, d, ?_, same, rest⟩
  rw [construct_looser atLeast askable run]
  exact operators_of_lt ends _ _ _

theorem Stands.starts {c : Cursor} (stands : g.Stands args more c) :
    ∃ t rest, c.rest = t :: rest ∧ t.kind ∈ TokenKind.operandStarts := by
  obtain ⟨t, us, begins, starts⟩ := g.spelled.starts
  refine ⟨t, us ++ g.behindCallee more, ?_, starts⟩
  rw [stands.here, begins]
  rfl

/-- A line with a call on it is a statement. -/
theorem Stands.statement {newline : Token} {c : Cursor} (stands : g.Stands args (newline :: more) c)
    (line : newline.kind = .newline) :
    ∃ id span call d, construct .declaration c = .ok ⟨id, span, .expressionStmt call⟩ d ∧
      call.bare = (g.call args).bare ∧ d.rest = more := by
  have weak : .ofOperator (firstKind (newline :: more)) < Precedence.assignment := by
    rw [firstKind, line]
    decide
  obtain ⟨call, d, run, same, rest⟩ := stands.loose (by decide) (by decide) weak
  obtain ⟨t, others, ahead, starts⟩ := stands.starts
  refine ⟨d.nextId, call.span, call, (d.behind newline more).numbered, ?_, same, rfl⟩
  rw [construct_eq] at run ⊢
  change declarationWith construct c = _
  rw [declarationWith_of_operandStarts ahead starts]
  change expressionWith construct .assignment c = _ at run
  unfold expressionStmt
  rw [bind_of_ok run, bind_of_ok (endStatement_of_newline rest line _)]
  rfl

/-- A call on a line of its own is all that the program consists of. -/
theorem Stands.parse {newline : Token} {tokens : List Token}
    (stands : g.Stands args [newline] (.ofTokens tokens)) (line : newline.kind = .newline) :
    (parse tokens).diagnostics = [] ∧ (parse tokens).program.bare =
      (⟨0, default, .program [⟨0, default, .expressionStmt (g.call args)⟩]⟩ : Node).bare := by
  obtain ⟨id, span, call, d, run, same, rest⟩ := stands.statement line
  obtain ⟨t, others, ahead, starts⟩ := stands.starts
  have word : ¬(t.kind = .newline ∨ t.kind = .outdent) := by
    rintro (kind | kind) <;> (rw [kind] at starts; exact absurd starts (by decide))
  have program := Cursor.program_declaration ahead word run
  rw [Cursor.program_ended rest] at program
  have top : topLevel (Cursor.ofTokens tokens).rest (.ofTokens tokens) = _ := program
  rw [parse_eq]
  dsimp only
  rw [top]
  refine ⟨rfl, ?_⟩
  simp only [Node.bare_mk, Form.map, List.map_cons, List.map_nil, same]

end GenericCall

/-! ### Places -/

/-- Where an operand may stand: by itself, behind a sign or `not`, behind `async`, to the right of
    an operator, and as the value of an assignment. -/
inductive OperandPlace
  | alone
  | behindSign (sign : Token)
  | behindAsync (word : Token)
  | right (left : Node) (operator : Token)
  | value (target : Node) (sign : Token)

namespace OperandPlace

/-- The level at which an operand is read there. -/
def level : OperandPlace → Precedence
  | alone | value .. => .assignment
  | behindSign _ | behindAsync _ => .unary
  | right _ operator => .ofRightOperand operator.kind

/-- Reads what stands there, and makes of it what it is the operand of. -/
def read {σ : Type} [TokenStream σ] : OperandPlace → ParserOf σ Node
  | alone => construct (.expression .assignment)
  | behindSign token | behindAsync token => operand construct token
  | right left operator | value left operator => extend construct left operator

/-- From a tape the same is read as at its cursor. -/
theorem read_tape (place : OperandPlace) (t : Tape) :
    Tape.outcome (place.read t) = place.read t.cursor := by
  cases place with
  | alone =>
    have askable : IsAskable (.expression .assignment) := Precedence.le_refl _
    exact Tape.construct_eq askable t
  | behindSign token | behindAsync token => exact t.operand_eq token
  | right left operator | value left operator => exact t.extend_eq left operator

/-- The place makes `whole` of the operand that stands there. -/
def Holds (operand : Node) (whole : Node) : OperandPlace → Prop
  | alone => whole = operand
  | behindSign sign => whole.form = .unary sign operand
  | behindAsync _ => whole.form = .async operand
  | right left operator => whole.form = .binary left operator operand
  | value target _ => whole.form = .assignment target operand

/-- The tokens around the place are those that it is meant for. A less-than sign is, unless it opens
    type arguments itself. -/
def Fits (c : Cursor) : OperandPlace → Prop
  | alone => True
  | behindSign sign => sign.kind = .minus ∨ sign.kind = .kwNot
  | behindAsync word => word.kind = .kwAsync
  | right left operator => operator.kind ∈ TokenKind.binaryOperators ∨
      operator.kind = .less ∧ (isGenericCallee left.form && closesBeforeParen 1 c.rest) = false
  | value target sign => sign.kind = .equal ∧ isAssignable target.form = true

/-- The places where comparisons are read without parentheses. -/
def IsLoose : OperandPlace → Prop
  | alone | value .. => True
  | behindSign _ | behindAsync _ => False
  | right _ operator => operator.kind ∈ [.kwOr, .kwAnd, .equalEqual, .bangEqual]

variable {place : OperandPlace} {c : Cursor}

theorem level_le_comparison_iff (fits : place.Fits c) :
    place.level ≤ .comparison ↔ place.IsLoose := by
  cases place with
  | alone | value => exact iff_of_true (by rw [level]; decide) trivial
  | behindSign | behindAsync => exact iff_of_false (by rw [level]; decide) id
  | right left operator =>
    have table : ∀ kind ∈ TokenKind.less :: TokenKind.binaryOperators,
        Precedence.ofRightOperand kind ≤ .comparison ↔
          kind ∈ [TokenKind.kwOr, .kwAnd, .equalEqual, .bangEqual] := by decide
    exact table _ (List.mem_cons.2 (fits.symm.imp And.left id))

theorem assignment_le_level (place : OperandPlace) : .assignment ≤ place.level := by
  cases place with
  | alone | value | behindSign | behindAsync => rw [level]; decide
  | right left operator => exact Precedence.assignment_le_ofRightOperand _

theorem level_le_call (fits : place.Fits c) : place.level ≤ .call := by
  cases place with
  | alone | value | behindSign | behindAsync => rw [level]; decide
  | right left operator =>
    have table : ∀ kind ∈ TokenKind.less :: TokenKind.binaryOperators,
        Precedence.ofRightOperand kind ≤ .call := by decide
    exact table _ (List.mem_cons.2 (fits.symm.imp And.left id))

/-- Whatever an operand is read as at the level of the place, the place holds it. -/
theorem read_of_operand (fits : place.Fits c) {n : Node} {d : Cursor}
    (run : construct (.expression place.level) c = .ok n d) :
    ∃ whole d', place.read c = .ok whole d' ∧ place.Holds n whole ∧ d'.rest = d.rest := by
  have made (span : Node → Span) (form : Node → Form Node) :
      (construct (.expression place.level) >>= fun n => node (span n) (form n)) c =
        .ok ⟨d.nextId, span n, form n⟩ d.numbered := by
    rw [bind_of_ok run]
    rfl
  cases place with
  | alone => exact ⟨n, d, run, rfl, rfl⟩
  | behindSign sign =>
    have reads : (operand construct sign : Parser Node) = unary construct sign := by
      unfold operand
      rcases fits with kind | kind <;> rw [kind]
    exact ⟨_, _, (congrFun reads c).trans (made (sign.span.through ·.span) (.unary sign)), rfl, rfl⟩
  | behindAsync word =>
    have reads : (operand construct word : Parser Node) = async construct word.span := by
      unfold operand
      rw [fits]
    exact ⟨_, _, (congrFun reads c).trans (made (word.span.through ·.span) .async), rfl, rfl⟩
  | right left operator =>
    have reads : extend construct left operator c = binary construct left operator c := by
      rcases fits with kind | ⟨kind, comparison⟩
      · rw [extend_of_binary kind]
      · simp only [extend, kind]
        unfold lessThan
        rw [get_bind, TokenStream.startsGenericCall_cursor,
          if_neg (Bool.eq_false_iff.1 comparison)]
    exact ⟨_, _, reads.trans (made (left.span.through ·.span) (.binary left operator)), rfl, rfl⟩
  | value target sign =>
    obtain ⟨kind, assignable⟩ := fits
    have reads : (extend construct target sign : Parser Node) = (do
        let value ← construct (.expression .assignment)
        node (target.span.through value.span) (.assignment target value)) := by
      simp only [extend, kind]
      unfold assignment
      rw [assignable, kind]
      rfl
    exact ⟨_, _, (congrFun reads c).trans (made (target.span.through ·.span) (.assignment target)),
      rfl, rfl⟩

end OperandPlace

/-- A call with type arguments is read as a call where an operand may be a comparison: by itself, as
    the value of an assignment, and to the right of `or`, `and` and the signs of equality. To the
    right of all other operators, and behind a sign, `not` or `async`, only what is called is read
    as the operand, and the less-than sign is left to go on with the whole. On a line of its own the
    call is a program without a fault. From a tape the same is read as at its cursor. -/
theorem generic_call_is_operand {g : GenericCall} {args : List Node} {more : List Token}
    {c : Cursor} (stands : g.Stands args more c) :
    (∀ place : OperandPlace, place.Fits c → place.IsLoose →
      .ofOperator (firstKind more) < place.level →
        ∃ call whole d, place.read c = .ok whole d ∧ place.Holds call whole ∧
          call.bare = (g.call args).bare ∧ d.rest = more) ∧
    (∀ place : OperandPlace, place.Fits c → ¬place.IsLoose →
      ∃ callee whole d, place.read c = .ok whole d ∧ place.Holds callee whole ∧
        callee.bare = g.callee.bare ∧ d.rest = g.behindCallee more) ∧
    (∀ tokens newline, c = .ofTokens tokens → more = [newline] → newline.kind = .newline →
      (parse tokens).diagnostics = [] ∧ (parse tokens).program.bare =
        (⟨0, default, .program [⟨0, default, .expressionStmt (g.call args)⟩]⟩ : Node).bare) ∧
    ∀ (place : OperandPlace) (t : Tape), t.cursor = c →
      Tape.outcome (place.read t) = place.read c := by
  refine ⟨fun place fits loose weak => ?_, fun place fits tight => ?_, ?_, ?_⟩
  · obtain ⟨call, d, run, same, rest⟩ := stands.loose place.assignment_le_level
      ((OperandPlace.level_le_comparison_iff fits).2 loose) weak
    obtain ⟨whole, d', runWhole, holds, rest'⟩ := OperandPlace.read_of_operand fits run
    exact ⟨call, whole, d', runWhole, holds, same, rest'.trans rest⟩
  · have tighter : .comparison < place.level :=
      Nat.lt_of_not_le fun loose => tight ((OperandPlace.level_le_comparison_iff fits).1 loose)
    obtain ⟨callee, d, run, same, rest⟩ := stands.tight tighter (OperandPlace.level_le_call fits)
    obtain ⟨whole, d', runWhole, holds, rest'⟩ := OperandPlace.read_of_operand fits run
    exact ⟨callee, whole, d', runWhole, holds, same, rest'.trans rest⟩
  · rintro tokens newline rfl rfl line
    exact stands.parse line
  · rintro place t rfl
    exact place.read_tape t

namespace Sample

/-- The call `f<int>(x)`. -/
def genericCall : GenericCall where
  callee := use "f"
  calleeTokens := [⟨.identifier, "f", default⟩]
  less := sign .less
  types := [⟨0, default, .typeRef [⟨.identifier, "int", default⟩] [] 0⟩]
  typeTokens := [⟨.identifier, "int", default⟩, sign .greater]
  paren := sign .leftParen
  argTokens := [⟨.identifier, "x", default⟩, sign .rightParen]
  spelled := .identifier rfl
  grouped := by decide
  callable := rfl
  opens := rfl
  listed := by
    have type :=
      @WrittenAs.typeRef ⟨.identifier, "int", default⟩ [] [] [] [] [] [] rfl .nil .none .nil
    exact ⟨_, .last rfl, .part (.phrase type (.word (by decide) .nil)) (.word (by decide) .nil)⟩
  calls := rfl

end Sample

open Sample in
/-- The call by itself, and to the right of a sign of equality. -/
theorem generic_call_is_operand_equal :
    let tokens := genericCall.calleeTokens ++ genericCall.behindCallee [sign .newline]
    let c := Cursor.ofTokens (tokens ++ [sign .eof])
    let place := OperandPlace.right (use "a") (sign .equalEqual)
    genericCall.Stands [use "x"] [sign .newline] c ∧ place.Fits c ∧ place.IsLoose ∧
      (∃ call whole d, place.read c = .ok whole d ∧ place.Holds call whole ∧
        call.bare = (genericCall.call [use "x"]).bare ∧ d.rest = [sign .newline]) ∧
      (parse (tokens ++ [sign .eof])).diagnostics = [] := by
  intro tokens c place
  have stands : genericCall.Stands [use "x"] [sign .newline] c := ⟨rfl, _, rfl, rfl⟩
  have fits : place.Fits c := .inl (by decide)
  have loose : place.IsLoose := by
    change TokenKind.equalEqual ∈ _
    decide
  obtain ⟨isCall, -, isStatement, -⟩ := generic_call_is_operand stands
  exact ⟨stands, fits, loose, isCall place fits loose (by decide), (isStatement _ _ rfl rfl rfl).1⟩

/-- Behind a plus sign there are two comparisons and no call. -/
theorem not_generic_call_is_operand_sum :
    let parsed := parse (lex "1 + f<int>(x)\n").tokens
    parsed.diagnostics = [] ∧ ∀ n ∈ parsed.program.descendants, n.kind ≠ .callExpr := by
  decide +kernel

end TekLang
