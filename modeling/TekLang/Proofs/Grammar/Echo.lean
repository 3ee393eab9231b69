import TekLang.Proofs.Grammar.Follows
import TekLang.Proofs.Grammar.Movement
import TekLang.Proofs.Node.Unplaced

/-!
# Reading in front of more tokens

A reader looks at one token more than it takes, and rarely further. So what it does on some tokens
it does again on tokens that say the same and have more behind them, as long as the first of these
is none that the reader could still go on with. `Cursor.Heads` relates the two places,
`Parser.Repeats` says that one reader does again what another did, and `Parser.Echoed` adds what is
needed in order to put such statements together.
-/

namespace TekLang

open Placed (anywhere)

/-! ## What may stand behind a text -/

namespace TokenKind

/-- The kinds that begin a statement and never go on with one. -/
def onlyBegins : TokenKind → Bool
  | identifier | number | string | boolean | kwThis | kwSuper | kwNew | kwAsync | kwNot => true
  | kwClass | kwFunction | kwVar | kwImport | kwIf | kwFor | kwWhile | kwRepeat | kwSwitch => true
  | kwTry | kwReturn | kwThrow | kwYield | kwBreak | kwContinue | kwFallthrough => true
  | _ => false

/-- The kinds that begin a statement and also go on with an expression. -/
def beginsOrJoins : TokenKind → Bool
  | minus | leftParen | leftBracket => true
  | _ => false

end TokenKind

/-- The kind of the first of some tokens. -/
def firstKind : List Token → TokenKind
  | [] => .eof
  | t :: _ => t.kind

theorem Cursor.nextKind_eq (c : Cursor) : c.nextKind = firstKind c.rest := by
  unfold nextKind firstKind
  rfl

/-- Tokens that may stand behind a text: none, or those that begin with a statement. -/
def MayFollow (more : List Token) : Prop :=
  firstKind more = .eof ∨ (firstKind more).onlyBegins = true ∨
    (firstKind more).beginsOrJoins = true

namespace Cursor

variable {more : List Token} {c d : Cursor}

/-- The last token up to the end of input belongs to the layout. -/
def Closed (c : Cursor) : Prop := (c.rest.getLastD c.last).kind.isLayout = true

/-- Where the tokens behind the end could go on with what is being read, the end is not reached. -/
def Open (more : List Token) (c : Cursor) : Prop :=
  (firstKind more).beginsOrJoins = true → c.rest ≠ []

/-- The cursor `d` stands in front of tokens that say the same as those that `c` stands in front of,
    and then of the tokens `more`. -/
structure Heads (more : List Token) (c d : Cursor) : Prop where
  rest : d.rest.map Token.unplaced = (c.rest ++ more).map Token.unplaced
  last : d.last.kind = c.last.kind
  closed : c.Closed

theorem Closed.behind {t : Token} {rest : List Token} (closed : c.Closed)
    (ahead : c.rest = t :: rest) : (c.behind t rest).Closed := by
  unfold Closed at closed ⊢
  rw [ahead, List.getLastD_cons] at closed
  exact closed

theorem Closed.of_moves {c' : Cursor} (closed : c.Closed) (moves : Moves c c') : c'.Closed := by
  induction moves with
  | refl => exact closed
  | take ahead _ ih => exact ih (closed.behind ahead)
  | number _ ih => exact ih closed

/-- At the end of input a token of the layout was read last. -/
theorem Closed.isLayout_last (closed : c.Closed) (ended : c.rest = []) :
    c.last.kind.isLayout = true := by
  unfold Closed at closed
  rw [ended] at closed
  exact closed

/-- Behind a word there is more to come. -/
theorem Closed.rest_ne_nil (closed : c.Closed) (word : c.last.kind.isLayout = false) :
    c.rest ≠ [] := by
  intro ended
  rw [closed.isLayout_last ended] at word
  cases word

/-- If more is to come, it ends with a token of the layout. -/
theorem Closed.getLast? (closed : c.Closed) (some : c.rest ≠ []) :
    ∃ t, c.rest.getLast? = .some t ∧ t.kind.isLayout = true := by
  unfold Closed at closed
  rw [List.getLastD_eq_getLast?, List.getLast?_eq_some_getLast some] at closed
  exact ⟨_, List.getLast?_eq_some_getLast some, closed⟩

theorem Open.of_suffix {c' : Cursor} (opened : c'.Open more) (suffix : c'.rest <:+ c.rest) :
    c.Open more := by
  intro joins ended
  rw [ended] at suffix
  exact opened joins (List.suffix_nil.1 suffix)

theorem open_of_rest_ne_nil (some : c.rest ≠ []) : c.Open more := fun _ => some

namespace Heads

theorem ahead (heads : c.Heads more d) {t : Token} {rest : List Token}
    (here : c.rest = t :: rest) : ∃ u others, d.rest = u :: others ∧
      u.unplaced = t.unplaced ∧ (c.behind t rest).Heads more (d.behind u others) := by
  have both := heads.rest
  rw [here, List.cons_append, List.map_cons] at both
  obtain ⟨u, others, split, same, tail⟩ := List.map_eq_cons_iff.1 both
  exact ⟨u, others, split, same, tail, Token.kind_eq_of_unplaced same, heads.closed.behind here⟩

theorem nextKind (heads : c.Heads more d) (some : c.rest ≠ []) : d.nextKind = c.nextKind := by
  obtain ⟨t, rest, here⟩ := List.exists_cons_of_ne_nil some
  obtain ⟨u, others, there, same, -⟩ := heads.ahead here
  rw [nextKind_of_rest_cons here, nextKind_of_rest_cons there, Token.kind_eq_of_unplaced same]

theorem nextKind_atEnd (heads : c.Heads more d) (ended : c.rest = []) :
    d.nextKind = firstKind more := by
  have both := heads.rest
  rw [ended, List.nil_append] at both
  rw [nextKind_eq]
  cases more with
  | nil =>
    rw [List.map_eq_nil_iff.1 both]
  | cons t more =>
    obtain ⟨u, others, split, same, -⟩ := List.map_eq_cons_iff.1 both
    rw [split]
    exact Token.kind_eq_of_unplaced same

theorem numbered (heads : c.Heads more d) : c.numbered.Heads more d.numbered :=
  ⟨heads.rest, heads.last, heads.closed⟩

theorem kinds (heads : c.Heads more d) :
    d.rest.map (·.kind) = (c.rest ++ more).map (·.kind) := by
  have both := congrArg (List.map (·.kind)) heads.rest
  rwa [List.map_map, List.map_map] at both

theorem length_rest (heads : c.Heads more d) :
    d.rest.length = c.rest.length + more.length := by
  have both := congrArg List.length heads.rest
  simpa using both

end Heads

end Cursor

namespace MayFollow

variable {more : List Token} (follows : MayFollow more) {kind : TokenKind} (word : kind ≠ .eof)
  (other : kind.onlyBegins = false)
include follows word other

/-- What goes on with a text is not what begins the next one, where the two can be told apart. -/
theorem ne_of_open {c : Cursor} (opened : c.Open more) (ended : c.rest = []) :
    firstKind more ≠ kind := by
  rintro rfl
  rcases follows with none | begins | joins
  · exact word none
  · rw [other] at begins
    cases begins
  · exact opened joins ended

theorem ne_of_not_joins (apart : kind.beginsOrJoins = false) : firstKind more ≠ kind := by
  rintro rfl
  rcases follows with none | begins | joins
  · exact word none
  · rw [other] at begins
    cases begins
  · rw [apart] at joins
    cases joins

end MayFollow

/-- The last item, if it is a word, is the token read last. -/
theorem Reads.last {items : List Item} {c c' : Cursor} (reads : Reads items c c') {t : Token}
    (ends : items.getLast? = some (.word t)) : c'.last = t := by
  induction reads with
  | nil => cases ends
  | @word u rest items c c' ahead others ih =>
    cases items with
    | nil =>
      cases others
      cases ends
      rfl
    | cons item items => exact ih (by simpa using ends)
  | @part _ _ _ _ _ _ items _ _ _ _ _ _ _ _ _ others _ _ ih =>
    cases items with
    | nil => cases ends
    | cons item items => exact ih (by simpa using ends)

/-- Items are not read from no tokens. -/
theorem Reads.rest_ne_nil {item : Item} {items : List Item} {c c' : Cursor}
    (reads : Reads (item :: items) c c') : c.rest ≠ [] := by
  intro ended
  have less := reads.rest_lt (List.cons_ne_nil _ _)
  rw [ended] at less
  exact Nat.not_lt_zero _ less

namespace Parser

variable {α β : Type}

/-- From cursors like that, a run that succeeds gives a result and a cursor like that. -/
def Ensures (Before : Cursor → Prop) (p : Parser α) (After : α → Cursor → Prop) : Prop :=
  ∀ c a c', Before c → p c = .ok a c' → After a c'

theorem itemsAfter_of_ne {mark : TokenKind} {c : Cursor} (other : c.nextKind ≠ mark)
    (item : Parser α) (loop : List Token) : itemsAfter mark item loop c = .ok [] c := by
  cases loop with
  | nil => rfl
  | cons round loop =>
    unfold itemsAfter
    rw [bind_of_ok (accept_of_ne other)]
    rfl

theorem itemsAfter_of_kind {mark : TokenKind} {c : Cursor} {t : Token} {rest : List Token}
    (ahead : c.rest = t :: rest) (marked : t.kind = mark) (item : Parser α) (round : Token)
    (loop : List Token) : itemsAfter mark item (round :: loop) c =
      (do return (← item) :: (← itemsAfter mark item loop) : Parser (List α))
        (c.behind t rest) := by
  rw [itemsAfter, bind_of_ok (accept_of_kind ahead marked)]
  rfl

theorem itemsUntil_of_kind {close : TokenKind} {c : Cursor} {t : Token} {rest : List Token}
    (ahead : c.rest = t :: rest) (closes : t.kind = close) (item : Parser α)
    (separator : Parser Unit) (round : Token) (loop : List Token) :
    itemsUntil close item separator (round :: loop) c = .ok [] (c.behind t rest) := by
  rw [itemsUntil, bind_of_ok (accept_of_kind ahead closes)]
  rfl

theorem itemsUntil_of_ne {close : TokenKind} {c : Cursor} (goesOn : c.nextKind ≠ close)
    (item : Parser α) (separator : Parser Unit) (round : Token) (loop : List Token) :
    itemsUntil close item separator (round :: loop) c =
      (do
        let first ← item
        separator
        let others ← itemsUntil close item separator loop
        return first :: others : Parser (List α)) c := by
  rw [itemsUntil, bind_of_ok (accept_of_ne goesOn)]
  rfl

theorem endStatement_of_newline {c : Cursor} {t : Token} {rest : List Token}
    (ahead : c.rest = t :: rest) (line : t.kind = .newline) (landmark : Landmark) :
    endStatement landmark c = .ok () (c.behind t rest) := by
  unfold endStatement
  rw [bind_of_ok (accept_of_kind ahead line)]
  rfl

/-- Where no line ends, the end of a statement takes nothing. -/
theorem endStatement_ok_of_ne {c c' : Cursor} (other : c.nextKind ≠ .newline)
    {landmark : Landmark} :
    endStatement landmark c = .ok () c' ↔ c' = c ∧ c.endsStatement = true := by
  unfold endStatement
  rw [bind_of_ok (accept_of_ne other)]
  change (if (!c.endsStatement) = true then fail _ else pure () : Parser Unit) c = _ ↔ _
  cases ends : c.endsStatement with
  | true =>
    constructor
    · rintro ⟨⟩
      exact ⟨rfl, rfl⟩
    · rintro ⟨rfl, -⟩
      rfl
  | false =>
    constructor
    · rintro ⟨⟩
    · rintro ⟨-, ⟨⟩⟩

section Relations

variable [Placed α] [Placed β]

/-- What `p` reads successfully, `q` reads again in front of more tokens. -/
def Repeats (more : List Token) (Before : Cursor → Prop) (Allowed : α → Cursor → Prop)
    (p q : Parser α) : Prop :=
  ∀ c d a c', c.Heads more d → Before c → p c = .ok a c' → Allowed a c' →
    ∃ b d', q d = .ok b d' ∧ anywhere b = anywhere a ∧ c'.Heads more d'

/-- The reader `q` repeats what `p` reads, wherever the tokens behind could not go on with it. -/
structure Echoed (more : List Token) (Before : Cursor → Prop) (After : α → Cursor → Prop)
    (p q : Parser α) : Prop where
  forward : Forward p
  ensures : Ensures Before p After
  repeats : Repeats more Before (fun _ c' => c'.Open more) p q

variable {more : List Token} {Before : Cursor → Prop} {After : α → Cursor → Prop}
  {Allowed : α → Cursor → Prop} {p q : Parser α}

namespace Repeats

theorem weaken {Before' : Cursor → Prop} {Allowed' : α → Cursor → Prop}
    (repeats : Repeats more Before Allowed p q) (before : ∀ c, Before' c → Before c)
    (allowed : ∀ a c, Allowed' a c → Allowed a c) : Repeats more Before' Allowed' p q :=
  fun c d a c' heads holds run permitted =>
    repeats c d a c' heads (before c holds) run (allowed a c' permitted)

theorem bind {Mid : α → Cursor → Prop} {Permitted : β → Cursor → Prop}
    {f g : α → Parser β} (first : Repeats more Before Allowed p q) (forward : Forward p)
    (ensures : Ensures Before p Mid)
    (kept : ∀ a c b c', Mid a c → c.Closed → f a c = .ok b c' → Permitted b c' → Allowed a c)
    (second : ∀ a a', anywhere a' = anywhere a → Repeats more (Mid a) Permitted (f a) (g a')) :
    Repeats more Before Permitted (p >>= f) (q >>= g) := by
  intro c d b c' heads holds run permitted
  obtain ⟨a, c₁, found, run₁⟩ := bind_eq_ok.1 run
  have mid := ensures c a c₁ holds found
  have closed := heads.closed.of_moves (forward.ok found)
  obtain ⟨a', d₁, found', same, heads₁⟩ :=
    first c d a c₁ heads holds found (kept a c₁ b c' mid closed run₁ permitted)
  obtain ⟨b', d', run₁', same', heads'⟩ := second a a' same c₁ d₁ b c' heads₁ mid run₁ permitted
  exact ⟨b', d', bind_eq_ok.2 ⟨a', d₁, found', run₁'⟩, same', heads'⟩

theorem ite {condition : Prop} [Decidable condition] {p' q' : Parser α}
    (yes : condition → Repeats more Before Allowed p q)
    (no : ¬condition → Repeats more Before Allowed p' q') :
    Repeats more Before Allowed (if condition then p else p') (if condition then q else q') := by
  by_cases holds : condition
  · rw [if_pos holds, if_pos holds]
    exact yes holds
  · rw [if_neg holds, if_neg holds]
    exact no holds

/-- Where the way depends on the cursor, the answer has to be the same with more tokens behind. -/
theorem getIf {asked asked' : Cursor → Bool} {p' q' : Parser α}
    (same : ∀ c d, c.Heads more d → Before c → asked' d = asked c)
    (yes : Repeats more (fun c => Before c ∧ asked c = true) Allowed p q)
    (no : Repeats more (fun c => Before c ∧ asked c = false) Allowed p' q') :
    Repeats more Before Allowed (do if asked (← MonadState.get) then p else p')
      (do if asked' (← MonadState.get) then q else q') := by
  intro c d a c' heads holds run permitted
  rw [get_bind] at run ⊢
  rw [same c d heads holds]
  by_cases answer : asked c = true
  · rw [if_pos answer] at run ⊢
    exact yes c d a c' heads ⟨holds, answer⟩ run permitted
  · rw [if_neg answer] at run ⊢
    exact no c d a c' heads ⟨holds, by simpa using answer⟩ run permitted

/-- Where the way depends on the next token: the end of input is another next token than the one
    that stands there if there are more. -/
theorem nextKind {f g : TokenKind → Parser α}
    (chosen : ∀ kind, Repeats more (fun c => Before c ∧ c.rest ≠ [] ∧ c.nextKind = kind) Allowed
      (f kind) (g kind))
    (atEnd : ∀ c d a c', c.Heads more d → Before c → c.rest = [] → f .eof c = .ok a c' →
      Allowed a c' → ∃ b d', g (firstKind more) d = .ok b d' ∧ anywhere b = anywhere a ∧
        c'.Heads more d') :
    Repeats more Before Allowed (Parser.nextKind >>= f) (Parser.nextKind >>= g) := by
  intro c d a c' heads holds run permitted
  rw [bind_of_ok (nextKind_apply c)] at run
  rw [bind_of_ok (nextKind_apply d)]
  by_cases ended : c.rest = []
  · rw [Cursor.nextKind_of_rest_nil ended] at run
    rw [heads.nextKind_atEnd ended]
    exact atEnd c d a c' heads holds ended run permitted
  · rw [heads.nextKind ended]
    exact chosen c.nextKind c d a c' heads ⟨holds, ended, rfl⟩ run permitted

theorem spanFrom {start start' : Span} {f g : Span → Parser α}
    (second : ∀ span span', Repeats more Before Allowed (f span) (g span')) :
    Repeats more Before Allowed (Parser.spanFrom start >>= f) (Parser.spanFrom start' >>= g) :=
  fun c d a c' heads holds run permitted =>
    second (start.through c.last.span) (start'.through d.last.span) c d a c' heads holds run
      permitted

theorem node {span span' : Span} {form form' : Form Node} {Allowed : Node → Cursor → Prop}
    (same : (form'.mapTokens Token.unplaced).map Node.unplaced =
      (form.mapTokens Token.unplaced).map Node.unplaced) :
    Repeats more Before Allowed (Parser.node span form) (Parser.node span' form') := by
  rintro c d _ _ heads holds ⟨⟩ _
  exact ⟨_, _, rfl, Node.unplaced_congr same, heads.numbered⟩

theorem spanned {start start' : Span} {form form' : Form Node} {Allowed : Node → Cursor → Prop}
    (same : (form'.mapTokens Token.unplaced).map Node.unplaced =
      (form.mapTokens Token.unplaced).map Node.unplaced) :
    Repeats more Before Allowed (do Parser.node (← Parser.spanFrom start) form)
      (do Parser.node (← Parser.spanFrom start') form') :=
  spanFrom fun _ _ => node same

end Repeats

namespace Echoed

theorem weaken {Before' : Cursor → Prop} {After' : α → Cursor → Prop}
    (echoed : Echoed more Before After p q) (before : ∀ c, Before' c → Before c)
    (after : ∀ a c, After a c → After' a c) : Echoed more Before' After' p q where
  forward := echoed.forward
  ensures c a c' holds run := after a c' (echoed.ensures c a c' (before c holds) run)
  repeats := echoed.repeats.weaken before fun _ _ => id

/-- What goes well from everywhere goes well from cursors like that. -/
theorem always (echoed : Echoed more (fun _ => True) After p q) : Echoed more Before After p q :=
  echoed.weaken (fun _ _ => trivial) fun _ _ => id

theorem forget (echoed : Echoed more Before After p q) :
    Echoed more Before (fun _ _ => True) p q :=
  echoed.weaken (fun _ => id) fun _ _ _ => trivial

/-- A reader in front of which more is always left repeats what is read before it. -/
theorem before {Mid : α → Cursor → Prop} {Permitted : β → Cursor → Prop} {f g : α → Parser β}
    (first : Echoed more Before Mid p q)
    (kept : ∀ a c b c', Mid a c → c.Closed → f a c = .ok b c' → Permitted b c' → c.Open more)
    (second : ∀ a a', anywhere a' = anywhere a → Repeats more (Mid a) Permitted (f a) (g a')) :
    Repeats more Before Permitted (p >>= f) (q >>= g) :=
  first.repeats.bind first.forward first.ensures kept second

theorem bind {Mid : α → Cursor → Prop} {Behind : β → Cursor → Prop} {f g : α → Parser β}
    (first : Echoed more Before Mid p q)
    (second : ∀ a a', anywhere a' = anywhere a → Echoed more (Mid a) Behind (f a) (g a')) :
    Echoed more Before Behind (p >>= f) (q >>= g) where
  forward := .bind first.forward fun a => (second a a rfl).forward
  ensures := by
    intro c b c' holds run
    obtain ⟨a, c₁, found, run₁⟩ := bind_eq_ok.1 run
    exact (second a a rfl).ensures c₁ b c' (first.ensures c a c₁ holds found) run₁
  repeats := by
    refine first.before ?_ fun a a' same => (second a a' same).repeats
    intro a c b c' _ _ run opened
    exact opened.of_suffix ((second a a rfl).forward.ok run).rest_suffix

theorem pure {a b : α} (same : anywhere b = anywhere a) (after : ∀ c, Before c → After a c) :
    Echoed more Before After (Pure.pure a) (Pure.pure b) where
  forward := .pure a
  ensures := by
    rintro c _ _ holds ⟨⟩
    exact after c holds
  repeats := by
    rintro c d _ _ heads holds ⟨⟩ _
    exact ⟨b, d, rfl, same, heads⟩

theorem failAt {q : Parser α} (span : Span) (fault : SyntaxFault) :
    Echoed more Before After (failAt span fault) q where
  forward := .failAt span fault
  ensures := by
    rintro c a c' holds ⟨⟩
  repeats := by
    rintro c d a c' heads holds ⟨⟩

theorem fail {q : Parser α} (fault : SyntaxFault) : Echoed more Before After (fail fault) q where
  forward := .fail fault
  ensures := by
    rintro c a c' holds ⟨⟩
  repeats := by
    rintro c d a c' heads holds ⟨⟩

theorem ite {condition : Prop} [Decidable condition] {p' q' : Parser α}
    (yes : condition → Echoed more Before After p q)
    (no : ¬condition → Echoed more Before After p' q') :
    Echoed more Before After (if condition then p else p') (if condition then q else q') := by
  by_cases holds : condition
  · rw [if_pos holds, if_pos holds]
    exact yes holds
  · rw [if_neg holds, if_neg holds]
    exact no holds

/-- The span of what is read is of no account. -/
theorem spanFrom {start start' : Span} {f g : Span → Parser α}
    (second : ∀ span span', Echoed more Before After (f span) (g span')) :
    Echoed more Before After (Parser.spanFrom start >>= f) (Parser.spanFrom start' >>= g) where
  forward := .bind (.spanFrom start) fun span => (second span span).forward
  ensures c a c' holds run :=
    (second (start.through c.last.span) default).ensures c a c' holds run
  repeats := .spanFrom fun span span' => (second span span').repeats

theorem upcoming {f g : Token → Parser α}
    (second : ∀ t u, Echoed more Before After (f t) (g u)) :
    Echoed more Before After (Parser.upcoming >>= f) (Parser.upcoming >>= g) where
  forward := .bind .upcoming fun t => (second t t).forward
  ensures c a c' holds run := (second c.upcoming default).ensures c a c' holds run
  repeats c d a c' heads holds run opened :=
    (second c.upcoming d.upcoming).repeats c d a c' heads holds run opened

/-- Where the cursor is only asked for what is of no account. -/
theorem get {f g : Cursor → Parser α} (second : ∀ c d, Echoed more Before After (f c) (g d)) :
    Echoed more Before After (MonadState.get >>= f) (MonadState.get >>= g) where
  forward := .bind .get fun c => (second c c).forward
  ensures c a c' holds run := (second c c).ensures c a c' holds run
  repeats c d a c' heads holds run opened := (second c d).repeats c d a c' heads holds run opened

/-- Where the tokens that are left are the rounds of a loop. -/
theorem getRest {f g : List Token → Parser α}
    (second : ∀ loop loop' : List Token, loop'.length = loop.length + more.length →
      Echoed more (fun c => Before c ∧ c.rest.length ≤ loop.length) After (f loop) (g loop')) :
    Echoed more Before After (do f (← MonadState.get).rest) (do g (← MonadState.get).rest) where
  forward := .bind .get fun c => (second c.rest (c.rest ++ more) List.length_append).forward
  ensures c a c' holds run :=
    (second c.rest (c.rest ++ more) List.length_append).ensures c a c' ⟨holds, Nat.le_refl _⟩ run
  repeats c d a c' heads holds run opened :=
    (second c.rest d.rest heads.length_rest).repeats c d a c' heads ⟨holds, Nat.le_refl _⟩
      run opened

theorem getIf {asked asked' : Cursor → Bool} {p' q' : Parser α}
    (same : ∀ c d, c.Heads more d → Before c → asked' d = asked c)
    (yes : Echoed more (fun c => Before c ∧ asked c = true) After p q)
    (no : Echoed more (fun c => Before c ∧ asked c = false) After p' q') :
    Echoed more Before After (do if asked (← MonadState.get) then p else p')
      (do if asked' (← MonadState.get) then q else q') where
  forward := .bind .get fun _ => .ite yes.forward no.forward
  ensures c a c' holds run := by
    rw [get_bind] at run
    by_cases answer : asked c = true
    · rw [if_pos answer] at run
      exact yes.ensures c a c' ⟨holds, answer⟩ run
    · rw [if_neg answer] at run
      exact no.ensures c a c' ⟨holds, by simpa using answer⟩ run
  repeats := .getIf same yes.repeats no.repeats

theorem node {span span' : Span} {form form' : Form Node} {After : Node → Cursor → Prop}
    (same : (form'.mapTokens Token.unplaced).map Node.unplaced =
      (form.mapTokens Token.unplaced).map Node.unplaced)
    (after : ∀ c, Before c → After ⟨c.nextId, span, form⟩ c.numbered) :
    Echoed more Before After (Parser.node span form) (Parser.node span' form') where
  forward := .node span form
  ensures := by
    rintro c _ _ holds ⟨⟩
    exact after c holds
  repeats := .node same

/-- The end of most readers: the node is made, with a span up to the token read last. -/
theorem spanned {start start' : Span} {form form' : Form Node} {After : Node → Cursor → Prop}
    (same : (form'.mapTokens Token.unplaced).map Node.unplaced =
      (form.mapTokens Token.unplaced).map Node.unplaced)
    (after : ∀ c span, Before c → After ⟨c.nextId, span, form⟩ c.numbered) :
    Echoed more Before After (do Parser.node (← Parser.spanFrom start) form)
      (do Parser.node (← Parser.spanFrom start') form') :=
  spanFrom fun span _ => node same fun c holds => after c span holds

theorem advance (kind : TokenKind) :
    Echoed more (fun c => c.rest ≠ [] ∧ c.nextKind = kind)
      (fun t c => t.kind = kind ∧ c.last = t) Parser.advance Parser.advance where
  forward := .advance
  ensures := by
    rintro c t c' ⟨some, next⟩ run
    obtain ⟨u, rest, ahead⟩ := List.exists_cons_of_ne_nil some
    rw [advance_of_rest_cons ahead] at run
    cases run
    exact ⟨(Cursor.nextKind_of_rest_cons ahead).symm.trans next, rfl⟩
  repeats := by
    rintro c d t c' heads ⟨some, next⟩ run -
    obtain ⟨u, rest, ahead⟩ := List.exists_cons_of_ne_nil some
    obtain ⟨v, others, there, same, heads'⟩ := heads.ahead ahead
    rw [advance_of_rest_cons ahead] at run
    cases run
    exact ⟨v, _, advance_of_rest_cons there, same, heads'⟩

/-- Whatever the next token is, as long as there is one. -/
theorem advance_some : Echoed more (fun c => c.rest ≠ []) (fun t c => c.last = t)
    Parser.advance Parser.advance where
  forward := .advance
  ensures c t c' some run := by
    have kept : Echoed more _ _ _ _ := advance c.nextKind
    exact (kept.ensures c t c' ⟨some, rfl⟩ run).2
  repeats c d t c' heads some run := (advance c.nextKind).repeats c d t c' heads ⟨some, rfl⟩ run

/-- No more tokens are left than there were. -/
theorem frame (echoed : Echoed more Before After p q) (rounds : Nat) :
    Echoed more (fun c => Before c ∧ c.rest.length ≤ rounds)
      (fun a c => After a c ∧ c.rest.length ≤ rounds) p q where
  forward := echoed.forward
  ensures c a c' holds run := ⟨echoed.ensures c a c' holds.1 run,
    Nat.le_trans (echoed.forward.ok run).rest_suffix.length_le holds.2⟩
  repeats := echoed.repeats.weaken (fun _ holds => holds.1) fun _ _ => id

/-- A token less is left. -/
theorem advance_frame (kind : TokenKind) (rounds : Nat) :
    Echoed more (fun c => (c.rest ≠ [] ∧ c.nextKind = kind) ∧ c.rest.length ≤ rounds + 1)
      (fun t c => (t.kind = kind ∧ c.last = t) ∧ c.rest.length ≤ rounds)
      Parser.advance Parser.advance where
  forward := .advance
  ensures := by
    rintro c t c' ⟨holds, enough⟩ run
    have kept : Echoed more _ _ _ _ := advance kind
    refine ⟨kept.ensures c t c' holds run, ?_⟩
    obtain ⟨u, rest, ahead⟩ := List.exists_cons_of_ne_nil holds.1
    rw [advance_of_rest_cons ahead] at run
    cases run
    rw [ahead] at enough
    exact Nat.le_of_succ_le_succ enough
  repeats := (advance kind).repeats.weaken (fun _ holds => holds.1) fun _ _ => id

theorem nextKind {f g : TokenKind → Parser α}
    (chosen : ∀ kind, Echoed more (fun c => Before c ∧ c.rest ≠ [] ∧ c.nextKind = kind) After
      (f kind) (g kind))
    (ensures : ∀ c a c', Before c → c.rest = [] → f .eof c = .ok a c' → After a c')
    (repeats : ∀ c d a c', c.Heads more d → Before c → c.rest = [] → f .eof c = .ok a c' →
      c'.Open more → ∃ b d', g (firstKind more) d = .ok b d' ∧ anywhere b = anywhere a ∧
        c'.Heads more d') :
    Echoed more Before After (Parser.nextKind >>= f) (Parser.nextKind >>= g) where
  forward := .bind .nextKind fun kind => (chosen kind).forward
  ensures c a c' holds run := by
    rw [bind_of_ok (nextKind_apply c)] at run
    by_cases ended : c.rest = []
    · rw [Cursor.nextKind_of_rest_nil ended] at run
      exact ensures c a c' holds ended run
    · exact (chosen c.nextKind).ensures c a c' ⟨holds, ended, rfl⟩ run
  repeats := .nextKind (fun kind => (chosen kind).repeats) repeats

/-- Where the way depends on the next token and there has to be one. -/
theorem nextKind_of_fails {f g : TokenKind → Parser α}
    (chosen : ∀ kind, Echoed more (fun c => Before c ∧ c.rest ≠ [] ∧ c.nextKind = kind) After
      (f kind) (g kind))
    (fails : ∀ c a c', c.rest = [] → f .eof c ≠ .ok a c') :
    Echoed more Before After (Parser.nextKind >>= f) (Parser.nextKind >>= g) :=
  nextKind chosen (fun c a c' _ ended run => absurd run (fails c a c' ended))
    fun c _ a c' _ _ ended run => absurd run (fails c a c' ended)

theorem expectAs {kind : TokenKind} (word : kind ≠ .eof) (wanted : Wanted) (setting : Setting) :
    Echoed more Before (fun t c => t.kind = kind ∧ c.last.kind = kind)
      (Parser.expectAs kind wanted setting) (Parser.expectAs kind wanted setting) := by
  refine nextKind_of_fails ?_ ?_
  · intro next
    refine ite ?_ fun _ => fail _
    rintro rfl
    refine (advance next).weaken (fun c holds => holds.2) ?_
    rintro t c ⟨same, last⟩
    exact ⟨same, last ▸ same⟩
  · intro c t c' _ run
    rw [if_neg (Ne.symm word)] at run
    exact not_fail_ok run

section Marks

variable (follows : MayFollow more) {mark : TokenKind} (word : mark ≠ .eof)
  (other : mark.onlyBegins = false)
include follows word other

theorem accept : Echoed more Before
    (fun b c => b = true ∧ c.last.kind = mark ∨ b = false ∧ Before c)
    (Parser.accept mark) (Parser.accept mark) := by
  refine nextKind ?_ ?_ ?_
  · intro next
    refine ite ?_ ?_
    · rintro rfl
      refine bind ((advance next).weaken (fun c holds => holds.2) fun _ _ => id) ?_
      intro t u _
      exact pure rfl fun c holds => .inl ⟨rfl, holds.2 ▸ holds.1⟩
    · intro _
      exact pure rfl fun c holds => .inr ⟨rfl, holds.1⟩
  · intro c b c' holds _ run
    rw [if_neg (Ne.symm word)] at run
    cases run
    exact .inr ⟨rfl, holds⟩
  · intro c d b c' heads holds ended run opened
    rw [if_neg (Ne.symm word)] at run
    cases run
    rw [if_neg (follows.ne_of_open word other opened ended)]
    exact ⟨false, d, rfl, rfl, heads⟩

/-- What a mark announces, and what comes instead of it. -/
theorem announced {p' q' : Parser α}
    (marked : Echoed more (fun c => c.last.kind = mark) After p q)
    (unmarked : Echoed more Before After p' q') :
    Echoed more Before After (do if ← Parser.accept mark then p else p')
      (do if ← Parser.accept mark then q else q') := by
  refine bind (accept follows word other) ?_
  rintro b _ rfl
  refine ite ?_ ?_
  · rintro rfl
    refine marked.weaken ?_ fun _ _ => id
    rintro c (⟨-, last⟩ | ⟨absurd, -⟩)
    · exact last
    · cases absurd
  · intro no
    refine unmarked.weaken ?_ fun _ _ => id
    rintro c (⟨absurd, -⟩ | ⟨-, holds⟩)
    · exact (no absurd).elim
    · exact holds

theorem optional {After : Option α → Cursor → Prop} {item item' : Parser α}
    (echoed : Echoed more (fun c => c.last.kind = mark) (fun a c => After (some a) c) item item')
    (without : ∀ c, Before c → After none c) :
    Echoed more Before After (Parser.optional mark item) (Parser.optional mark item') := by
  refine announced follows word other (bind echoed ?_) (pure rfl without)
  intro a a' same
  exact pure (congrArg some same) fun _ => id

theorem optionalList {After : List α → Cursor → Prop} {list list' : Parser (List α)}
    (echoed : Echoed more (fun c => c.last.kind = mark) After list list')
    (without : ∀ c, Before c → After [] c) :
    Echoed more Before After (Parser.optionalList mark list) (Parser.optionalList mark list') :=
  announced follows word other echoed (pure rfl without)

end Marks

end Echoed

end Relations

end Parser

end TekLang
