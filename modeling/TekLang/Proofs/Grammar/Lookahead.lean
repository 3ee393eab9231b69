import TekLang.Proofs.Grammar.GenericCall

/-!
# Looking ahead for a call

Behind a less-than sign the search for a parenthesis counts angle brackets and lets the other tokens
of types come in any order. Types keep an order, and two neighbours are enough to see it kept: what
may stand behind a token is settled by its kind. So where the search sees a call, type arguments are
read up to the bracket in front of the parenthesis just if every token up to there may stand behind
the one before it. Otherwise reading breaks off at the first that may not, also where the less-than
sign could have been read as a comparison.
-/

namespace TekLang

/-- The kinds of token that may stand behind one of the kind in type arguments. Behind the bracket
    that opens them a type comes, or the bracket that closes them. -/
def TokenKind.typeFollowers : TokenKind → List TokenKind
  | less | comma => [identifier, greater]
  | identifier => [dot, less, leftBracket, comma, greater]
  | dot => [identifier]
  | leftBracket => [rightBracket]
  | rightBracket | greater => [leftBracket, comma, greater]
  | _ => []

namespace Parser

/-- Every token may stand behind the one before it in type arguments. -/
def InTypeOrder (ts : List Token) : Prop := ts.IsChain fun t u => u.kind ∈ t.kind.typeFollowers

instance : DecidablePred InTypeOrder := fun ts =>
  inferInstanceAs (Decidable (ts.IsChain fun t u => u.kind ∈ t.kind.typeFollowers))

/-- How many brackets are open behind a token of the kind if `depth` are open in front of it. -/
def depthBehind (depth : Nat) : TokenKind → Nat
  | .less => depth + 1
  | .greater => depth - 1
  | _ => depth

/-- The tokens through the bracket that closes the last of the `depth` open ones. -/
def throughClosing : Nat → List Token → List Token
  | 0, _ | _, [] => []
  | depth + 1, t :: rest => t :: throughClosing (depthBehind (depth + 1) t.kind) rest

/-! ### The search -/

/-- What the search says with `depth` brackets open. Once all are closed it asks for the
    parenthesis. -/
def seesCall : Nat → List Token → Bool
  | 0, rest => (rest.head?.map (·.kind)) = some .leftParen
  | depth + 1, rest => closesBeforeParen (depth + 1) rest

/-- The kinds of token that the search goes on behind. -/
def typeKinds : List TokenKind := .less :: .greater :: skippedKinds

section Search

variable {t : Token} {rest : List Token} {depth : Nat}

theorem depthBehind_of_skipped {kind : TokenKind} (skipped : kind ∈ skippedKinds) :
    depthBehind depth kind = depth := by
  revert skipped
  cases kind <;> first | (intro; rfl) | (intro skipped; exact absurd skipped (by decide))

theorem seesCall_cons (among : t.kind ∈ typeKinds) :
    seesCall (depth + 1) (t :: rest) = seesCall (depthBehind (depth + 1) t.kind) rest := by
  rcases List.mem_cons.1 among with opens | among
  · rw [opens]
    exact closesBeforeParen_less opens
  · rcases List.mem_cons.1 among with closes | skipped
    · rw [closes]
      cases depth with
      | zero =>
        rw [seesCall, closesBeforeParen, closes]
        rfl
      | succ depth => exact closesBeforeParen_greater closes (Nat.succ_pos depth)
    · rw [depthBehind_of_skipped skipped]
      exact closesBeforeParen_skip skipped

/-- The search gives up at all other tokens. -/
theorem mem_typeKinds_of_seesCall (sees : seesCall (depth + 1) (t :: rest) = true) :
    t.kind ∈ typeKinds := by
  rw [seesCall, closesBeforeParen] at sees
  cases kind : t.kind <;> rw [kind] at sees <;> first | decide | cases sees

/-- A parenthesis that is seen stands behind the last closing bracket. -/
theorem exists_paren_of_seesCall {ts : List Token} (sees : seesCall depth ts = true) :
    ∃ paren more, paren.kind = .leftParen ∧ ts = throughClosing depth ts ++ paren :: more := by
  induction ts generalizing depth with
  | nil => cases depth <;> cases sees
  | cons t rest ih =>
    cases depth with
    | zero => exact ⟨t, rest, by simpa [seesCall] using sees, rfl⟩
    | succ depth =>
      rw [seesCall_cons (mem_typeKinds_of_seesCall sees)] at sees
      obtain ⟨paren, more, calls, split⟩ := ih sees
      refine ⟨paren, more, calls, ?_⟩
      rw [throughClosing, List.cons_append, ← split]

end Search

theorem mem_typeKinds_of_follows {kind kind' : TokenKind} (follows : kind' ∈ kind.typeFollowers) :
    kind' ∈ typeKinds := by
  have each : ∀ kind' ∈ kind.typeFollowers, kind' ∈ typeKinds := by cases kind <;> decide
  exact each kind' follows

/-! ### Readers that keep the order -/

/-- From one cursor to another over tokens in order, with `depth` brackets open at the one and
    `depth'` at the other. Behind the last closing bracket nothing is taken. -/
inductive Scans : Nat → Cursor → Nat → Cursor → Prop
  | refl (depth c) : Scans depth c depth c
  | take {depth depth' c c' t rest} (ahead : c.rest = t :: rest) (within : 0 < depth)
    (ordered : t.kind ∈ c.last.kind.typeFollowers)
    (others : Scans (depthBehind depth t.kind) (c.behind t rest) depth' c') :
    Scans depth c depth' c'
  | number {depth depth' c c'} (others : Scans depth c.numbered depth' c') :
    Scans depth c depth' c'

namespace Scans

variable {depth depth' depth'' : Nat} {c c' c'' : Cursor}

theorem trans (first : Scans depth c depth' c') (second : Scans depth' c' depth'' c'') :
    Scans depth c depth'' c'' := by
  induction first with
  | refl => exact second
  | take ahead within ordered _ ih => exact .take ahead within ordered (ih second)
  | number _ ih => exact .number (ih second)

theorem length_le (scans : Scans depth c depth' c') : c'.rest.length ≤ c.rest.length := by
  induction scans with
  | refl => exact Nat.le_refl _
  | take ahead _ _ _ ih =>
    rw [ahead, List.length_cons]
    exact Nat.le_succ_of_le ih
  | number _ ih => exact ih

/-- The search says the same in front of the tokens and behind them. -/
theorem seesCall_eq (scans : Scans depth c depth' c') :
    seesCall depth c.rest = seesCall depth' c'.rest := by
  induction scans with
  | refl => rfl
  | take ahead within ordered _ ih =>
    obtain ⟨depth, rfl⟩ := Nat.exists_eq_succ_of_ne_zero (Nat.ne_of_gt within)
    rw [ahead, seesCall_cons (mem_typeKinds_of_follows ordered)]
    exact ih
  | number _ ih => exact ih

theorem exists_used (scans : Scans depth c depth' c') : ∃ used, c.rest = used ++ c'.rest ∧
    throughClosing depth c.rest = used ++ throughClosing depth' c'.rest ∧
    InTypeOrder (c.last :: used) ∧ (c.last :: used).getLast? = some c'.last := by
  induction scans with
  | refl => exact ⟨[], rfl, rfl, .singleton _, rfl⟩
  | @take depth depth' c c' t rest ahead within ordered _ ih =>
    obtain ⟨depth, rfl⟩ := Nat.exists_eq_succ_of_ne_zero (Nat.ne_of_gt within)
    obtain ⟨used, taken, through, order, last⟩ := ih
    refine ⟨t :: used, ?_, ?_, .cons_cons ordered order, ?_⟩
    · rw [ahead, List.cons_append, ← taken]
      rfl
    · rw [ahead, throughClosing, List.cons_append, ← through]
      rfl
    · rw [List.getLast?_cons_cons]
      exact last
  | number _ ih => exact ih

end Scans

variable {α β : Type}

/-- Reading on from a cursor with `depth` brackets open takes tokens in order. It ends with `depth'`
    open, where `Done` holds, or breaks off at the first token that is out of order. -/
def Orderly (depth depth' : Nat) (Done : Cursor → Prop) (c : Cursor) :
    EStateM.Result SyntaxError Cursor α → Prop
  | .ok _ c' => Scans depth c depth' c' ∧ Done c'
  | .error e c' => ∃ left, 0 < left ∧ Scans depth c left c' ∧
      c'.nextKind ∉ c'.last.kind.typeFollowers ∧ e.span = c'.upcoming.span

namespace Orderly

variable {depth depth' depth'' : Nat} {Here Done : Cursor → Prop} {c c₁ : Cursor}

/-- Reading on behind tokens that were taken in order. -/
theorem behind (scans : Scans depth c depth' c₁) {run : EStateM.Result SyntaxError Cursor α}
    (others : Orderly depth' depth'' Done c₁ run) : Orderly depth depth'' Done c run := by
  cases run with
  | ok a c' => exact ⟨scans.trans others.1, others.2⟩
  | error e c' =>
    obtain ⟨left, within, more, stuck⟩ := others
    exact ⟨left, within, scans.trans more, stuck⟩

theorem mono {run : EStateM.Result SyntaxError Cursor α} (more : ∀ c, Here c → Done c)
    (orderly : Orderly depth depth' Here c run) : Orderly depth depth' Done c run := by
  cases run with
  | ok a c' => exact orderly.imp_right (more c')
  | error e c' => exact orderly

theorem bind {p : Parser α} {f : α → Parser β} (first : Orderly depth depth' Here c (p c))
    (second : ∀ a c₁, p c = .ok a c₁ → Here c₁ → Orderly depth' depth'' Done c₁ (f a c₁)) :
    Orderly depth depth'' Done c ((p >>= f) c) := by
  rw [bind_apply]
  cases run : p c with
  | ok a c₁ =>
    rw [run] at first
    exact behind first.1 (second a c₁ run first.2)
  | error e c' =>
    rw [run] at first
    exact first

end Orderly

theorem exists_cons_of_nextKind {c : Cursor} {kind : TokenKind} (next : c.nextKind = kind)
    (word : kind ≠ .eof) : ∃ t rest, c.rest = t :: rest ∧ t.kind = kind := by
  cases ahead : c.rest with
  | nil => exact absurd (next.symm.trans (Cursor.nextKind_of_rest_nil ahead)) word
  | cons t rest => exact ⟨t, rest, rfl, (Cursor.nextKind_of_rest_cons ahead).symm.trans next⟩

section Readers

variable {depth : Nat} (within : 0 < depth)
include within

/-- A token that is the only one that may come. -/
theorem orderly_expectAs {kind : TokenKind} (skipped : kind ∈ skippedKinds) {c : Cursor}
    (allowed : kind ∈ c.last.kind.typeFollowers)
    (only : c.nextKind ∈ c.last.kind.typeFollowers → c.nextKind = kind) (wanted : Wanted)
    (setting : Setting) :
    Orderly depth depth (·.last.kind = kind) c (expectAs kind wanted setting c) := by
  have word : kind ≠ .eof := by
    rintro rfl
    exact absurd skipped (by decide)
  by_cases next : c.nextKind = kind
  · obtain ⟨t, rest, ahead, same⟩ := exists_cons_of_nextKind next word
    rw [expectAs_of_kind ahead same]
    refine ⟨.take ahead within (same ▸ allowed) ?_, same⟩
    rw [same, depthBehind_of_skipped skipped]
    exact .refl _ _
  · unfold expectAs
    rw [bind_of_ok (nextKind_apply c), if_neg next]
    exact ⟨depth, within, .refl _ _, fun follows => next (only follows), rfl⟩

section Marks

variable {mark : TokenKind} (skipped : mark ∈ skippedKinds) {item : Parser α} {Here : Cursor → Prop}
  (marked : ∀ c, Here c → c.nextKind = mark → mark ∈ c.last.kind.typeFollowers)
  (each : ∀ c, c.last.kind = mark → Orderly depth depth Here c (item c))
include skipped marked each

theorem orderly_itemsAfter (rounds : List Token) {c : Cursor}
    (enough : c.rest.length ≤ rounds.length) (here : Here c) :
    Orderly depth depth (fun c' => Here c' ∧ c'.nextKind ≠ mark) c
      (itemsAfter mark item rounds c) := by
  have word : mark ≠ .eof := by
    rintro rfl
    exact absurd skipped (by decide)
  induction rounds generalizing c with
  | nil =>
    refine ⟨.refl _ _, here, ?_⟩
    rw [Cursor.nextKind_of_rest_nil (List.length_eq_zero_iff.1 (Nat.le_zero.1 enough))]
    exact word.symm
  | cons round rounds ih =>
    unfold itemsAfter
    by_cases next : c.nextKind = mark
    · obtain ⟨t, rest, ahead, same⟩ := exists_cons_of_nextKind next word
      rw [bind_of_ok (accept_of_kind ahead same)]
      have step : Scans depth c depth (c.behind t rest) := by
        refine .take ahead within (same ▸ marked c here next) ?_
        rw [same, depthBehind_of_skipped skipped]
        exact .refl _ _
      rw [ahead, List.length_cons, List.length_cons] at enough
      refine .behind step (.bind (each _ same) fun a c₁ found here₁ => ?_)
      have le : c₁.rest.length ≤ rest.length := by
        have first := each (c.behind t rest) same
        rw [found] at first
        exact first.1.length_le
      refine .bind (ih (by omega) here₁) fun as c₂ _ ends => ?_
      exact ⟨.refl _ _, ends⟩
    · rw [bind_of_ok (accept_of_ne next)]
      exact ⟨.refl _ _, here, next⟩

/-- As many marks as there are, each with what belongs behind it. -/
theorem orderly_eachAfter {c : Cursor} (here : Here c) :
    Orderly depth depth (fun c' => Here c' ∧ c'.nextKind ≠ mark) c (eachAfter mark item c) :=
  orderly_itemsAfter within skipped marked each c.rest (Nat.le_refl _) here

end Marks

end Readers

/-- Behind the path of a type and its type arguments: no more of either can come. -/
def BehindHead (c : Cursor) : Prop :=
  c.last.kind ∈ [.greater, .rightBracket] ∨
    c.last.kind = .identifier ∧ c.nextKind ≠ .dot ∧ c.nextKind ≠ .less

/-- Behind a type. -/
def EndsType (c : Cursor) : Prop := BehindHead c ∧ c.nextKind ≠ .leftBracket

/-- Where type arguments may close or another type may come. -/
def AtArgument (c : Cursor) : Prop :=
  c.last.kind ∈ [.less, .comma] ∨ EndsType c ∧ c.nextKind = .greater

theorem BehindHead.mem_typeFollowers {c : Cursor} (head : BehindHead c) {kind : TokenKind}
    (among : kind ∈ [.leftBracket, .comma, .greater]) : kind ∈ c.last.kind.typeFollowers := by
  have each : ∀ last ∈ [TokenKind.greater, .rightBracket, .identifier],
      ∀ kind ∈ [TokenKind.leftBracket, .comma, .greater], kind ∈ last.typeFollowers := by decide
  refine each _ ?_ _ among
  rcases head with brackets | ⟨name, -⟩
  · exact List.mem_append_left [.identifier] brackets
  · rw [name]
    decide

/-- Behind a type a comma comes or a closing bracket. -/
theorem EndsType.next {c : Cursor} (ends : EndsType c)
    (follows : c.nextKind ∈ c.last.kind.typeFollowers) :
    c.nextKind = .comma ∨ c.nextKind = .greater := by
  obtain ⟨head, other⟩ := ends
  rcases head with brackets | ⟨name, noDot, noLess⟩
  · have each : ∀ last ∈ [TokenKind.greater, .rightBracket], ∀ next ∈ last.typeFollowers,
        next ≠ .leftBracket → next = .comma ∨ next = .greater := by decide
    exact each _ brackets _ follows other
  · rw [name] at follows
    have each : ∀ next ∈ TokenKind.identifier.typeFollowers, next ≠ .leftBracket → next ≠ .dot →
        next ≠ .less → next = .comma ∨ next = .greater := by decide
    exact each _ follows other noDot noLess

section Types

variable {depth : Nat} (within : 0 < depth)
include within

theorem orderly_path {c : Cursor} (name : c.last.kind = .identifier) :
    Orderly depth depth (fun c' => c'.last.kind = .identifier ∧ c'.nextKind ≠ .dot) c
      (eachAfter .dot (expectName (.after (.word .dot))) c) := by
  refine orderly_eachAfter within (by decide) (fun c' here _ => by rw [here]; decide) ?_ name
  intro c' dot
  refine orderly_expectAs within (by decide) (by rw [dot]; decide) ?_ _ _
  rw [dot]
  exact List.mem_singleton.1

theorem orderly_dimensions {c : Cursor} (head : BehindHead c) :
    Orderly depth depth EndsType c
      (eachAfter .leftBracket (expect .rightBracket (.after (.word .leftBracket))) c) := by
  refine orderly_eachAfter within (by decide)
    (fun c' here _ => here.mem_typeFollowers (by decide)) ?_ head
  intro c' bracket
  have closes : Orderly depth depth (·.last.kind = .rightBracket) c'
      (expect .rightBracket (.after (.word .leftBracket)) c') := by
    refine orderly_expectAs within (by decide) (by rw [bracket]; decide) ?_ _ _
    rw [bracket]
    exact List.mem_singleton.1
  exact closes.mono fun c' closed => .inl (by rw [closed]; decide)

section Nested

variable {c : Cursor} (arguments : ∀ c' : Cursor, c'.rest.length < c.rest.length →
  c'.last.kind = .less →
    Orderly (depth + 1) depth (·.last.kind = .greater) c' (genericArguments typeRef c'))
include arguments

theorem orderly_typeArguments (name : c.last.kind = .identifier) (noDot : c.nextKind ≠ .dot) :
    Orderly depth depth BehindHead c (optionalList .less (genericArguments typeRef) c) := by
  unfold optionalList
  by_cases next : c.nextKind = .less
  · obtain ⟨t, rest, ahead, same⟩ := exists_cons_of_nextKind next (by decide)
    rw [bind_of_ok (accept_of_kind ahead same)]
    have step : Scans depth c (depth + 1) (c.behind t rest) := by
      refine .take ahead within (by rw [name, same]; decide) ?_
      rw [same]
      exact .refl _ _
    have shorter : (c.behind t rest).rest.length < c.rest.length := by
      rw [ahead]
      exact Nat.lt_succ_self _
    exact .behind step
      ((arguments _ shorter same).mono fun c' closed => .inl (by rw [closed]; decide))
  · rw [bind_of_ok (accept_of_ne next)]
    exact ⟨.refl _ _, .inr ⟨name, noDot, next⟩⟩

/-- A type is read in order if the type arguments further on are. -/
theorem orderly_typeRef (begins : c.last.kind ∈ [.less, .comma]) (opens : c.nextKind ≠ .greater) :
    Orderly depth depth EndsType c (typeRef c) := by
  have nested : typeRef c = typeWith typeRef c := (congrFun ((typeRef_ends _).2 rfl) c).symm
  have starts : TokenKind.identifier ∈ c.last.kind.typeFollowers ∧
      (c.nextKind ∈ c.last.kind.typeFollowers → c.nextKind = .identifier) := by
    have each : ∀ last ∈ [TokenKind.less, .comma], .identifier ∈ last.typeFollowers ∧
        ∀ next ∈ last.typeFollowers, next ≠ .greater → next = .identifier := by decide
    exact ⟨(each _ begins).1, fun follows => (each _ begins).2 _ follows opens⟩
  rw [nested]
  unfold typeWith
  refine .bind (orderly_expectAs within (by decide) starts.1 starts.2 _ _) ?_
  intro first c₁ taken name
  have shorter : c₁.rest.length < c.rest.length := by
    obtain ⟨items, ⟨_⟩, reads⟩ := expectAs_follows (by decide) _ _ _ _ _ taken
    exact reads.rest_lt (List.cons_ne_nil _ _)
  have path := orderly_path within name
  refine .bind path ?_
  rintro others c₂ read ⟨name, noDot⟩
  have le : c₂.rest.length ≤ c₁.rest.length := by
    rw [read] at path
    exact path.1.length_le
  refine .bind
    (orderly_typeArguments within (fun c' fewer => arguments c' (by omega)) name noDot) ?_
  intro generics c₃ _ head
  refine .bind (orderly_dimensions within head) fun pairs c₄ _ ends => ?_
  exact ⟨.number (.refl _ _), ends⟩

end Nested

end Types

/-- A list with commas goes round by round. -/
theorem commaSequence_eq_round {item : Parser Node} (among : item ∈ listItems) {close : TokenKind}
    (word : close ≠ .eof) (setting : Setting) (c : Cursor) :
    commaSequence close setting item c =
      listRound close item (comma close setting) (commaSequence close setting item) c :=
  (congrFun ((loopsEnd.commaSequences item among close word setting _).2 rfl) c).symm

/-- Type arguments are read in order through the bracket that closes them. -/
theorem orderly_genericArguments {depth : Nat} (within : 0 < depth) {c : Cursor}
    (here : AtArgument c) :
    Orderly depth (depth - 1) (·.last.kind = .greater) c (genericArguments typeRef c) := by
  -- The arguments of a type within and those behind it have fewer tokens left.
  induction length : c.rest.length using Nat.strong_induction_on generalizing depth c with
  | _ length ih =>
    subst length
    have round : genericArguments typeRef c =
        listRound .greater typeRef (comma .greater .anywhere) (genericArguments typeRef) c :=
      commaSequence_eq_round (by simp [listItems]) (by decide) .anywhere c
    rw [round]
    unfold listRound
    by_cases next : c.nextKind = .greater
    · obtain ⟨t, rest, ahead, same⟩ := exists_cons_of_nextKind next (by decide)
      rw [bind_of_ok (accept_of_kind ahead same)]
      refine ⟨.take ahead within ?_ ?_, same⟩
      · rw [same]
        rcases here with begins | ⟨⟨head, -⟩, -⟩
        · have each : ∀ last ∈ [TokenKind.less, .comma], .greater ∈ last.typeFollowers := by decide
          exact each _ begins
        · exact head.mem_typeFollowers (by decide)
      · rw [same]
        exact .refl _ _
    · rw [bind_of_ok (accept_of_ne next)]
      have begins := here.resolve_right fun ends => next ends.2
      have nested (c' : Cursor) (shorter : c'.rest.length < c.rest.length)
          (less : c'.last.kind = .less) :=
        ih _ shorter (Nat.succ_pos depth) (.inl (by rw [less]; decide)) rfl
      refine .bind (orderly_typeRef within nested begins next) fun first c₁ found ends => ?_
      have shorter := typeRef_follows.takes _ _ _ found
      have separated : Orderly depth depth AtArgument c₁ (comma .greater .anywhere c₁) := by
        unfold comma
        rw [bind_of_ok (nextKind_apply c₁)]
        by_cases closes : c₁.nextKind = .greater
        · rw [if_neg (not_not_intro closes)]
          exact ⟨.refl _ _, .inr ⟨ends, closes⟩⟩
        · rw [if_pos closes]
          refine .bind (orderly_expectAs within (by decide) (ends.1.mem_typeFollowers (by decide))
            (fun follows => (ends.next follows).resolve_right closes) _ _) ?_
          intro t c₂ _ separates
          exact ⟨.refl _ _, .inl (by rw [separates]; decide)⟩
      refine .bind separated fun _ c₂ between here₂ => ?_
      have le : c₂.rest.length ≤ c₁.rest.length := by
        rw [between] at separated
        exact separated.1.length_le
      refine .bind (ih _ (by omega) within here₂ rfl) fun others c₃ _ closed => ?_
      exact ⟨.refl _ _, closed⟩

/-! ### Calls and parentheses -/

/-- Nothing can be read at the end of input, nor at the parenthesis that closes arguments. -/
theorem exists_cons_of_expression {level : Precedence} {n : Node} {c c' : Cursor}
    (run : construct (.expression level) c = .ok n c') :
    ∃ t rest, c.rest = t :: rest ∧ t.kind ≠ .rightParen := by
  rw [construct_eq, constructWith] at run
  cases ahead : c.rest with
  | nil =>
    rw [expressionWith_atEnd ahead] at run
    exact absurd run not_fail_ok
  | cons t rest =>
    refine ⟨t, rest, rfl, fun closes => ?_⟩
    rw [expressionWith_of_rest_cons ahead] at run
    obtain ⟨first, c₁, found, -⟩ := bind_eq_ok.1 run
    rw [operand, closes] at found
    cases found

theorem exists_rest_of_expect {kind : TokenKind} (word : kind ≠ .eof) {setting : Setting}
    {t : Token} {c c' : Cursor} (run : expect kind setting c = .ok t c') :
    ∃ rest, c.rest = t :: rest ∧ t.kind = kind ∧ c' = c.behind t rest := by
  obtain ⟨items, ⟨same⟩, reads⟩ := expect_follows word _ _ _ _ run
  cases reads with
  | word ahead others =>
    cases others
    exact ⟨_, ahead, same, rfl⟩

/-- What can be read in parentheses is a list of arguments too, with nothing else in it. -/
theorem arguments_of_wrapped {start : Span} {value : Node} {c c' : Cursor}
    (run : wrapped construct start c = .ok value c') :
    ∃ content d, value.form = .wrapped content ∧
      arguments construct .rightParen c = .ok [content] d ∧ d.rest = c'.rest := by
  obtain ⟨content, c₁, found, closed⟩ := bind_eq_ok.1 run
  obtain ⟨paren, c₂, taken, made⟩ := bind_eq_ok.1 closed
  cases made
  obtain ⟨more, behind, same, rfl⟩ := exists_rest_of_expect (by decide) taken
  obtain ⟨t, rest, ahead, other⟩ := exists_cons_of_expression found
  have argument : unlessAtEnd (.token .rightParen) (expression construct) c = .ok content c₁ :=
    (unlessAtEnd_of_rest_cons ahead _ _).trans found
  have round (d : Cursor) : arguments construct .rightParen d =
      listRound .rightParen (unlessAtEnd (.token .rightParen) (expression construct))
        (comma .rightParen .anywhere) (arguments construct .rightParen) d :=
    commaSequence_eq_round (by simp [listItems]) (by decide) .anywhere d
  have separated : comma .rightParen .anywhere c₁ = .ok () c₁ := by
    unfold comma
    rw [bind_of_ok (nextKind_apply c₁), Cursor.nextKind_of_rest_cons behind, same]
    rfl
  have none : arguments construct .rightParen c₁ = .ok [] (c₁.behind paren more) := by
    rw [round]
    unfold listRound
    rw [bind_of_ok (accept_of_kind behind same)]
    rfl
  refine ⟨content, c₁.behind paren more, rfl, ?_, rfl⟩
  rw [round]
  unfold listRound
  rw [bind_of_ok (accept_of_ne ((Cursor.nextKind_of_rest_cons ahead).trans_ne other))]
  refine (bind_of_ok argument _).trans ((bind_of_ok separated _).trans ?_)
  exact bind_of_ok none _

/-- So it is the only argument of a call. -/
theorem call_of_wrapped (callee : Node) (generics : List Node) {start : Span} {value : Node}
    {c c' : Cursor} (run : wrapped construct start c = .ok value c') :
    ∃ content whole d, value.form = .wrapped content ∧
      call construct callee generics c = .ok whole d ∧
      whole.form = .call callee generics [content] ∧ d.rest = c'.rest := by
  obtain ⟨content, d, within, listed, rest⟩ := arguments_of_wrapped run
  refine ⟨content, ⟨d.nextId, callee.span.through d.last.span, .call callee generics [content]⟩,
    d.numbered, within, ?_, rfl, rest⟩
  unfold call
  exact bind_of_ok listed _

/-! ### Type arguments where the search sees a call -/

theorem inTypeOrder_concat {ts : List Token} {last t : Token} (ends : ts.getLast? = some last) :
    InTypeOrder (ts ++ [t]) ↔ InTypeOrder ts ∧ t.kind ∈ last.kind.typeFollowers := by
  unfold InTypeOrder
  rw [List.isChain_append, ends]
  simp

section Commits

variable {c d : Cursor} (sign : c.last.kind = .less)
include sign

theorem orderly_behindLess :
    Orderly 1 0 (·.last.kind = .greater) c (genericArguments typeRef c) :=
  orderly_genericArguments Nat.one_pos (.inl (by rw [sign]; decide))

/-- Type arguments that are read are in order and end where the search ends. -/
theorem inTypeOrder_of_genericArguments {types : List Node}
    (read : genericArguments typeRef c = .ok types d) :
    InTypeOrder (c.last :: throughClosing 1 c.rest) ∧
      c.rest = throughClosing 1 c.rest ++ d.rest := by
  have orderly := orderly_behindLess sign
  rw [read] at orderly
  obtain ⟨used, taken, through, order, -⟩ := orderly.1.exists_used
  rw [throughClosing, List.append_nil] at through
  rw [through]
  exact ⟨order, taken⟩

/-- Where the search sees a call, type arguments break off only within what it has passed over, at
    the first token out of order. -/
theorem exists_outOfOrder_of_genericArguments {e : SyntaxError}
    (sees : closesBeforeParen 1 c.rest = true) (broken : genericArguments typeRef c = .error e d) :
    ∃ front t back, throughClosing 1 c.rest = front ++ t :: back ∧
      InTypeOrder (c.last :: front) ∧ ¬InTypeOrder (c.last :: (front ++ [t])) ∧
      e.span = t.span ∧ c.rest = front ++ d.rest ∧ d.rest.head? = some t := by
  have orderly := orderly_behindLess sign
  rw [broken] at orderly
  obtain ⟨left, within, scans, stuck, place⟩ := orderly
  obtain ⟨used, taken, through, order, last⟩ := scans.exists_used
  obtain ⟨left, rfl⟩ := Nat.exists_eq_succ_of_ne_zero (Nat.ne_of_gt within)
  -- The search still sees the call from where reading broke off, so a token is up next there.
  have still : seesCall (left + 1) d.rest = true := scans.seesCall_eq.symm.trans sees
  cases ahead : d.rest with
  | nil =>
    rw [ahead] at still
    cases still
  | cons t rest =>
    rw [Cursor.nextKind_of_rest_cons ahead] at stuck
    rw [Cursor.upcoming_of_rest_cons ahead] at place
    rw [ahead] at through taken
    refine ⟨used, t, throughClosing (depthBehind (left + 1) t.kind) rest, through, order, ?_,
      place, taken, rfl⟩
    intro further
    exact stuck ((inTypeOrder_concat last).1 further).2

end Commits

/-- What follows a less-than sign behind which the search sees a call. -/
theorem extend_of_closesBeforeParen {left : Node} {c : Cursor}
    (callable : isGenericCallee left.form = true) (sign : c.last.kind = .less)
    (sees : closesBeforeParen 1 c.rest = true) :
    extend construct left c.last c = (do
      let generics ← genericArguments typeRef
      let _ ← expect .leftParen (.after .genericArguments)
      call construct left generics) c := by
  simp only [extend, sign]
  unfold lessThan
  rw [get_bind, TokenStream.startsGenericCall_cursor, callable, sees]
  rfl

end Parser

open TekLang.Parser

/-- Where the search behind a less-than sign sees a call, the sign never becomes a comparison. If
    the tokens through the closing bracket are in the order of types, they are read as type
    arguments, the parenthesis behind them opens the arguments of the call, and whatever can be read
    in parentheses there is its only argument. If they are not, reading breaks off at the first
    token out of order. All of it is so at every tape whose cursor this is. -/
theorem generic_call_commits {left : Node} {c : Cursor}
    (callable : isGenericCallee left.form = true) (sign : c.last.kind = .less)
    (sees : closesBeforeParen 1 c.rest = true) :
    (∃ paren more, paren.kind = .leftParen ∧ c.rest = throughClosing 1 c.rest ++ paren :: more ∧
      (InTypeOrder (c.last :: throughClosing 1 c.rest) →
        ∃ types d, genericArguments typeRef c = .ok types d ∧ d.rest = paren :: more ∧
          extend construct left c.last c = call construct left types (d.behind paren more) ∧
          ∀ value d', wrapped construct paren.span (d.behind paren more) = .ok value d' →
            ∃ content whole d'', value.form = .wrapped content ∧
              extend construct left c.last c = .ok whole d'' ∧
              whole.form = .call left types [content] ∧ d''.rest = d'.rest) ∧
      (¬InTypeOrder (c.last :: throughClosing 1 c.rest) →
        ∃ front t back fault d, throughClosing 1 c.rest = front ++ t :: back ∧
          InTypeOrder (c.last :: front) ∧ ¬InTypeOrder (c.last :: (front ++ [t])) ∧
          genericArguments typeRef c = .error ⟨fault, t.span⟩ d ∧
          d.rest = t :: (back ++ paren :: more) ∧
          extend construct left c.last c = .error ⟨fault, t.span⟩ d)) ∧
    ∀ t : Tape, t.cursor = c → TokenStream.startsGenericCall t = true ∧
      Tape.outcome (genericArguments typeRef t) = genericArguments typeRef c ∧
      Tape.outcome (extend construct left t.previous t) = extend construct left c.last c := by
  constructor
  · obtain ⟨paren, more, calls, split⟩ := @exists_paren_of_seesCall 1 c.rest sees
    have extended := extend_of_closesBeforeParen callable sign sees
    refine ⟨paren, more, calls, split, fun order => ?_, fun disorder => ?_⟩
    · cases read : genericArguments typeRef c with
      | error e d =>
        obtain ⟨front, t, back, through, -, breaks, -⟩ :=
          exists_outOfOrder_of_genericArguments sign sees read
        rw [through, List.append_cons, ← List.cons_append] at order
        exact absurd (List.IsChain.left_of_append order) breaks
      | ok types d =>
        have behind : d.rest = paren :: more := List.append_cancel_left
          ((inTypeOrder_of_genericArguments sign read).2.symm.trans split)
        have called : extend construct left c.last c =
            call construct left types (d.behind paren more) := by
          rw [extended, bind_of_ok read, expect, bind_of_ok (expectAs_of_kind behind calls _ _)]
        refine ⟨types, d, rfl, behind, called, fun value d' run => ?_⟩
        rw [called]
        exact call_of_wrapped left types run
    · cases read : genericArguments typeRef c with
      | ok types d => exact absurd (inTypeOrder_of_genericArguments sign read).1 disorder
      | error e d =>
        obtain ⟨front, t, back, through, order, breaks, place, taken, head⟩ :=
          exists_outOfOrder_of_genericArguments sign sees read
        obtain ⟨fault, span⟩ := e
        cases place
        refine ⟨front, t, back, fault, d, through, order, breaks, rfl, ?_, ?_⟩
        · rw [through, List.append_assoc] at split
          exact List.append_cancel_left (taken.symm.trans split)
        · rw [extended, bind_apply, read]
  · rintro t rfl
    exact ⟨t.startsGenericCall_eq.trans sees, t.genericArguments_eq, t.extend_eq left t.previous⟩

namespace Sample

/-- Behind a less-than sign, in front of the text. -/
def behindLess (text : String) : Cursor :=
  { Cursor.ofTokens (lex text).tokens with last := sign .less }

end Sample

open Sample in
/-- The call `f<m.T<U>[], V>(x)` from behind its first sign. -/
theorem generic_call_commits_nested :
    let c := behindLess "m.T<U>[], V>(x)\n"
    isGenericCallee (use "f").form = true ∧ c.last.kind = .less ∧
      closesBeforeParen 1 c.rest = true ∧ InTypeOrder (c.last :: throughClosing 1 c.rest) ∧
      ∃ types d paren more, genericArguments typeRef c = .ok types d ∧
        d.rest = paren :: more ∧ paren.kind = .leftParen ∧
        extend construct (use "f") c.last c =
          call construct (use "f") types (d.behind paren more) := by
  intro c
  have sees : closesBeforeParen 1 c.rest = true := by decide +kernel
  have order : InTypeOrder (c.last :: throughClosing 1 c.rest) := by decide +kernel
  obtain ⟨⟨paren, more, calls, -, orderly, -⟩, -⟩ :=
    @generic_call_commits (use "f") c rfl rfl sees
  obtain ⟨types, d, read, behind, called, -⟩ := orderly order
  exact ⟨rfl, rfl, sees, order, types, d, paren, more, read, behind, calls, called⟩

open Sample in
/-- Two expressions that can be read with another sign of comparison, but not with this one. The
    search sees a call behind it, for it neither pairs square brackets nor minds what is in them. -/
theorem not_generic_call_commits_brackets :
    let messages text := (parse (lex text).tokens).diagnostics.map (·.message)
    let c := behindLess "b], c > (d))\n"
    closesBeforeParen 1 c.rest = true ∧ ¬InTypeOrder (c.last :: throughClosing 1 c.rest) ∧
      messages "f(x[a < b], c > (d))\n" = ["Expected ',' or '>'"] ∧
      messages "f(x[a <= b], c > (d))\n" = [] ∧
      messages "a < b[c] > (d)\n" = ["Expected ']' after '['"] ∧
      messages "a <= b[c] > (d)\n" = [] := by
  decide +kernel

end TekLang
