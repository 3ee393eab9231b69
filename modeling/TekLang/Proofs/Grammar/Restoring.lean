import TekLang.Proofs.Grammar.Echo
import TekLang.Proofs.Grammar.Writing

/-!
# Reading what was written

A reader restores a tree if, in front of the tokens that the tree is written with, it takes these
tokens and gives the tree again, up to what does not show in the tokens. What may come behind them
is part of the statement, for most readers look at one token more than they take.
-/

namespace TekLang

/-- The items, or what comes behind them, begin with a token of one of these kinds. -/
def Begin (kinds : List TokenKind) (items : List Item) (more : List Token) : Prop :=
  ∀ ts, WritesAll items ts → firstKind (ts ++ more) ∈ kinds

namespace Begin

variable {kinds : List TokenKind} {kind mark : TokenKind} {items others : List Item}
  {more : List Token}

theorem word {t : Token} (same : t.kind = kind) : Begin [kind] (.word t :: items) more := by
  intro ts written
  obtain ⟨us, rfl, -⟩ := written.word_inv
  exact List.mem_singleton.2 same

theorem part {phrase : Phrase} {n : Node} :
    Begin phrase.starts (.part phrase n :: items) more := by
  intro ts written
  obtain ⟨t, us, rfl, starts⟩ := written.starts phrase n items rfl
  exact starts

theorem nil (next : firstKind more ∈ kinds) : Begin kinds [] more := by
  intro ts written
  cases written
  exact next

theorem mono {fewer : List TokenKind} (begins : Begin fewer items more)
    (within : ∀ kind ∈ fewer, kind ∈ kinds) : Begin kinds items more :=
  fun ts written => within _ (begins ts written)

/-- What may be missing begins with its mark, or what comes behind it begins. -/
theorem append {xs : List Item} (begins : xs = [] ∨ ∃ t rest, xs = .word t :: rest ∧ t.kind = mark)
    (behind : Begin kinds items more) : Begin (mark :: kinds) (xs ++ items) more := by
  rcases begins with rfl | ⟨t, rest, rfl, same⟩
  · exact behind.mono fun kind member => List.mem_cons_of_mem _ member
  · intro ts written
    obtain ⟨us, rfl, -⟩ := written.word_inv
    rw [List.cons_append, firstKind, same]
    exact List.mem_cons_self

theorem optionally {α : Type} {Means : α → List Item → Prop} {a? : Option α} {xs : List Item}
    (given : Optionally mark Means a? xs) (behind : Begin kinds items more) :
    Begin (mark :: kinds) (xs ++ items) more := by
  refine append ?_ behind
  cases given with
  | none => exact .inl rfl
  | some marked thing => exact .inr ⟨_, _, rfl, marked⟩

theorem eachAfter {α : Type} {Means : α → List Item → Prop} {as : List α} {xs : List Item}
    (each : EachAfter mark Means as xs) (behind : Begin kinds items more) :
    Begin (mark :: kinds) (xs ++ items) more := by
  refine append ?_ behind
  cases each with
  | nil => exact .inl rfl
  | cons marked first others => exact .inr ⟨_, _, rfl, marked⟩

theorem listAfter {Means : List Node → List Item → Prop} {nodes : List Node} {xs : List Item}
    (list : ListAfter mark Means nodes xs) (behind : Begin kinds items more) :
    Begin (mark :: kinds) (xs ++ items) more := by
  refine append ?_ behind
  cases list with
  | none => exact .inl rfl
  | some marked list => exact .inr ⟨_, _, rfl, marked⟩

theorem lastEach {α : Type} {Means : α → List Item → Prop} {as : List α}
    (each : EachAfter mark Means as items) (next : firstKind more ∈ kinds) :
    Begin (mark :: kinds) items more := by
  rw [← List.append_nil items]
  exact eachAfter each (.nil next)

theorem parts {phrase : Phrase} {t : Token} (same : t.kind = kind) (nodes : List Node) :
    Begin (kind :: phrase.starts) (parts phrase nodes ++ .word t :: items) more := by
  cases nodes with
  | nil =>
    exact (word same).mono fun _ member => List.mem_cons.2 (.inl (List.mem_singleton.1 member))
  | cons n nodes => exact part.mono fun _ member => List.mem_cons_of_mem _ member

theorem block {phrase : Phrase} {nodes : List Node} {xs : List Item}
    (indented : Block phrase nodes xs) : Begin [.newline] (xs ++ items) more := by
  cases indented with
  | mk nodes line => exact word line

theorem lastBlock {phrase : Phrase} {nodes : List Node} (indented : Block phrase nodes items) :
    Begin [.newline] items more := by
  rw [← List.append_nil items]
  exact block indented

/-- An if begins with its keyword. -/
theorem conditional {use : Use} {id : NodeId} {span : Span} {condition : Node} {body : List Node}
    {otherwise : Option Node} : Begin [.kwIf]
      (.part .declaration ⟨id, span, .conditional use condition body otherwise⟩ :: items) more := by
  intro ts written
  obtain ⟨us, vs, rfl, first, -⟩ := written.part_inv
  cases first with
  | phrase layout words =>
    cases layout with
    | conditional kind =>
      obtain ⟨tail, rfl, -⟩ := words.word_inv
      exact List.mem_singleton.2 kind

theorem blockOrLine {phrase : Phrase} {nodes : List Node}
    (indented : BlockOrLine phrase nodes items) : Begin [.newline] items more := by
  cases indented with
  | block indented => exact lastBlock indented
  | line ends => exact word ends

end Begin

namespace Parser

variable {α β γ δ : Type}

/-- In front of the tokens that the items are written with and of `more`, the reader takes the
    former and gives `a`, as far as `f` can tell. Of the tokens that are left there are no more than
    `rounds`. -/
def Restores (rounds : Nat) (f : α → β) (items : List Item) (more : List Token) (p : Parser α)
    (a : α) : Prop :=
  ∀ ts c, WritesAll items ts → c.rest = ts ++ more → c.rest.length ≤ rounds →
    ∃ a' c', p c = .ok a' c' ∧ f a' = f a ∧ c'.rest = more

variable {rounds : Nat} {f : α → β} {g : γ → δ} {more : List Token} {items : List Item}
  {p : Parser α} {a : α} {b : γ}

namespace Restores

theorem mono {less : Nat} (restores : Restores rounds f items more p a) (fewer : less ≤ rounds) :
    Restores less f items more p a :=
  fun ts c written here enough => restores ts c written here (Nat.le_trans enough fewer)

theorem pure (a : α) : Restores rounds f [] more (Pure.pure a) a := by
  intro ts c written here _
  cases written
  exact ⟨a, c, rfl, rfl, here⟩

theorem before {xs ys : List Item} {next : α → Parser γ}
    (first : ∀ us, WritesAll ys us → Restores rounds f xs (us ++ more) p a)
    (second : ∀ a', f a' = f a → Restores rounds g ys more (next a') b) :
    Restores rounds g (xs ++ ys) more (p >>= next) b := by
  intro ts c written here enough
  obtain ⟨us, vs, rfl, front, back⟩ := written.append_inv
  rw [List.append_assoc] at here
  obtain ⟨a', c₁, run, same, left⟩ := first vs back us c front here enough
  have fewer : c₁.rest.length ≤ rounds := by
    rw [left]
    rw [here, List.length_append] at enough
    omega
  obtain ⟨b', c', run', same', left'⟩ := second a' same vs c₁ back left fewer
  exact ⟨b', c', bind_eq_ok.2 ⟨a', c₁, run, run'⟩, same', left'⟩

/-- The first of two readers looks at the kind of the next token. -/
theorem bind {kinds : List TokenKind} {xs ys : List Item} {next : α → Parser γ}
    (behind : Begin kinds ys more)
    (first : ∀ rest, firstKind rest ∈ kinds → Restores rounds f xs rest p a)
    (second : ∀ a', f a' = f a → Restores rounds g ys more (next a') b) :
    Restores rounds g (xs ++ ys) more (p >>= next) b :=
  before (fun us back => first _ (behind us back)) second

/-- The first of two readers does not look at what comes behind. -/
theorem andThen {xs ys : List Item} {next : α → Parser γ}
    (first : ∀ rest, Restores rounds f xs rest p a)
    (second : ∀ a', f a' = f a → Restores rounds g ys more (next a') b) :
    Restores rounds g (xs ++ ys) more (p >>= next) b :=
  before (fun _ _ => first _) second

/-- What comes last. -/
theorem last {next : α → Parser γ} (first : Restores rounds f items more p a)
    (second : ∀ a', f a' = f a → Restores rounds g [] more (next a') b) :
    Restores rounds g items more (p >>= next) b := by
  rw [← List.append_nil items]
  refine before (fun us nothing => ?_) second
  cases nothing
  exact first

/-- What begins with a word is read behind it. -/
theorem announced {t : Token} {next : Token → Parser γ}
    (second : ∀ ts c, WritesAll items ts → c.rest = ts ++ more → c.rest.length ≤ rounds →
      c.last = t → ∃ b' c', next t c = .ok b' c' ∧ g b' = g b ∧ c'.rest = more) :
    Restores (rounds + 1) g (.word t :: items) more (advance >>= next) b := by
  intro ts c written here enough
  obtain ⟨us, rfl, others⟩ := written.word_inv
  rw [bind_of_ok (advance_of_rest_cons here)]
  rw [here] at enough
  exact second us _ others rfl (Nat.le_of_succ_le_succ enough) rfl

theorem advanced {t : Token} {next : Token → Parser γ}
    (second : Restores rounds g items more (next t) b) :
    Restores (rounds + 1) g (.word t :: items) more (advance >>= next) b :=
  announced fun ts c written here enough _ => second ts c written here enough

/-- A word that is asked for. -/
theorem taken {t : Token} {kind : TokenKind} (same : t.kind = kind) {wanted : Wanted}
    {setting : Setting} {next : Token → Parser γ}
    (second : Restores rounds g items more (next t) b) :
    Restores (rounds + 1) g (.word t :: items) more (expectAs kind wanted setting >>= next) b := by
  intro ts c written here enough
  obtain ⟨us, rfl, others⟩ := written.word_inv
  rw [bind_of_ok (expectAs_of_kind here same wanted setting)]
  refine second us _ others rfl ?_
  rw [here] at enough
  exact Nat.le_of_succ_le_succ enough

theorem word {t : Token} {kind : TokenKind} (same : t.kind = kind) {wanted : Wanted}
    {setting : Setting} {next : Token → Parser γ}
    (second : Restores rounds g items more (next t) b) :
    Restores rounds g (.word t :: items) more (expectAs kind wanted setting >>= next) b :=
  (taken same second).mono (Nat.le_succ _)

/-- A word and nothing else. -/
theorem expectAs {t : Token} {kind : TokenKind} (same : t.kind = kind) (wanted : Wanted)
    (setting : Setting) :
    Restores rounds id [.word t] more (Parser.expectAs kind wanted setting) t := by
  intro ts c written here _
  obtain ⟨us, rfl, others⟩ := written.word_inv
  cases others
  exact ⟨t, _, expectAs_of_kind here same wanted setting, rfl, rfl⟩

theorem spanFrom {start : Span} {next : Span → Parser γ}
    (second : ∀ span, Restores rounds g items more (next span) b) :
    Restores rounds g items more (Parser.spanFrom start >>= next) b :=
  fun ts c written here enough => second _ ts c written here enough

theorem node {id : NodeId} {span span' : Span} {form form' : Form Node}
    (same : form'.map Node.bare = form.map Node.bare) :
    Restores rounds Node.bare [] more (Parser.node span' form') ⟨id, span, form⟩ := by
  intro ts c written here _
  cases written
  refine ⟨_, _, node_apply span' form' c, ?_, here⟩
  rw [Node.bare_mk, Node.bare_mk, same]

/-- The end of most readers. -/
theorem spanned {id : NodeId} {start span : Span} {form form' : Form Node}
    (same : form'.map Node.bare = form.map Node.bare) :
    Restores rounds Node.bare [] more (do Parser.node (← Parser.spanFrom start) form')
      ⟨id, span, form⟩ := spanFrom fun _ => node same

theorem upcoming {next : Token → Parser γ}
    (second : ∀ t, Restores rounds g items more (next t) b) :
    Restores rounds g items more (Parser.upcoming >>= next) b :=
  fun ts c written here enough => second _ ts c written here enough

theorem accepted {t : Token} {mark : TokenKind} {next : Bool → Parser γ} (same : t.kind = mark)
    (second : Restores rounds g items more (next true) b) :
    Restores rounds g (.word t :: items) more (accept mark >>= next) b := by
  intro ts c written here enough
  obtain ⟨us, rfl, others⟩ := written.word_inv
  rw [bind_of_ok (accept_of_kind here same)]
  refine second us _ others rfl ?_
  rw [here] at enough
  exact Nat.le_of_succ_le enough

theorem refused {kinds : List TokenKind} {mark : TokenKind} {next : Bool → Parser γ}
    (begins : Begin kinds items more) (apart : mark ∉ kinds)
    (second : Restores rounds g items more (next false) b) :
    Restores rounds g items more (accept mark >>= next) b := by
  intro ts c written here enough
  have other : c.nextKind ≠ mark := by
    rw [Cursor.nextKind_eq, here]
    exact ne_of_mem_of_not_mem (begins ts written) apart
  rw [bind_of_ok (accept_of_ne other)]
  exact second ts c written here enough

/-- The end of a statement that a line ends behind. -/
theorem line {newline : Token} (ends : newline.kind = .newline) {landmark : Landmark}
    {next : Unit → Parser γ} (second : Restores rounds g items more (next ()) b) :
    Restores rounds g (.word newline :: items) more (endStatement landmark >>= next) b := by
  intro ts c written here enough
  obtain ⟨us, rfl, others⟩ := written.word_inv
  rw [bind_of_ok (endStatement_of_newline here ends landmark)]
  refine second us _ others rfl ?_
  rw [here] at enough
  exact Nat.le_of_succ_le enough

theorem unmarked {mark : TokenKind} (apart : firstKind more ≠ mark) :
    Restores rounds (Option.map f) [] more (Parser.optional mark p) none := by
  intro ts c written here _
  cases written
  unfold Parser.optional
  rw [bind_of_ok (accept_of_ne (by rwa [Cursor.nextKind_eq, here]))]
  exact ⟨none, c, rfl, rfl, here⟩

theorem marked {mark : TokenKind} {t : Token} (same : t.kind = mark)
    (restores : Restores rounds f items more p a) :
    Restores rounds (Option.map f) (.word t :: items) more (Parser.optional mark p) (some a) := by
  intro ts c written here enough
  obtain ⟨us, rfl, others⟩ := written.word_inv
  rw [here] at enough
  obtain ⟨a', c', run, alike, left⟩ := restores us (c.behind t (us ++ more)) others rfl
    (Nat.le_of_succ_le enough)
  unfold Parser.optional
  rw [bind_of_ok (accept_of_kind here same)]
  exact ⟨some a', c', bind_eq_ok.2 ⟨a', c', run, rfl⟩, congrArg some alike, left⟩

theorem optional {mark : TokenKind} {Means : α → List Item → Prop} {a? : Option α}
    (given : Optionally mark Means a? items) (apart : firstKind more ≠ mark)
    (item : ∀ a items, Means a items → Restores rounds f items more p a) :
    Restores rounds (Option.map f) items more (Parser.optional mark p) a? := by
  cases given with
  | none => exact unmarked apart
  | some same thing => exact marked same (item _ _ thing)

theorem optionalList {mark : TokenKind} {Means : List Node → List Item → Prop}
    {nodes : List Node} {list : Parser (List Node)} (given : ListAfter mark Means nodes items)
    (apart : firstKind more ≠ mark)
    (content : ∀ items, Means nodes items →
      Restores rounds (List.map Node.bare) items more list nodes) :
    Restores rounds (List.map Node.bare) items more (Parser.optionalList mark list) nodes := by
  intro ts c written here enough
  unfold Parser.optionalList
  cases given with
  | none =>
    cases written
    rw [bind_of_ok (accept_of_ne (by rwa [Cursor.nextKind_eq, here]))]
    exact ⟨[], c, rfl, rfl, here⟩
  | @some t nodes items marked listed =>
    obtain ⟨us, rfl, others⟩ := written.word_inv
    rw [bind_of_ok (accept_of_kind here marked)]
    rw [here] at enough
    exact content items listed us (c.behind t (us ++ more)) others rfl (Nat.le_of_succ_le enough)

/-- Things with a mark in front of each are read up to what begins with another token. -/
theorem eachAfter {kinds : List TokenKind} {mark : TokenKind} {Means : α → List Item → Prop}
    {as : List α} (each : EachAfter mark Means as items) (next : firstKind more ∈ kinds)
    (apart : mark ∉ kinds)
    (item : ∀ a items rest, Means a items → firstKind rest ∈ mark :: kinds →
      Restores rounds f items rest p a) :
    Restores rounds (List.map f) items more (Parser.eachAfter mark p) as := by
  intro ts c written here enough
  have room : ts.length ≤ c.rest.length := by
    rw [here, List.length_append]
    omega
  unfold Parser.eachAfter
  rw [get_bind, TokenStream.rounds_cursor]
  generalize c.rest = loop at room ⊢
  induction each generalizing ts c loop with
  | nil =>
    cases written
    have other : c.nextKind ≠ mark := by
      rw [Cursor.nextKind_eq, here]
      exact fun same => apart (same ▸ next)
    exact ⟨[], c, itemsAfter_of_ne other p loop, rfl, here⟩
  | @cons t a as items others marked first each ih =>
    obtain ⟨tail, rfl, behindMark⟩ := written.word_inv
    obtain ⟨us, vs, rfl, content, back⟩ := behindMark.append_inv
    cases loop with
    | nil => exact absurd room (Nat.not_succ_le_zero _)
    | cons round loop =>
      rw [List.cons_append, List.append_assoc] at here
      have behind : Begin (mark :: kinds) others more := .lastEach each next
      simp only [here, List.length_cons, List.length_append] at enough room
      obtain ⟨a', c₁, run, same, left⟩ := item a items (vs ++ more) first (behind vs back) us
        (c.behind t (us ++ (vs ++ more))) content rfl (by simp; omega)
      obtain ⟨as', c₂, runs, sames, left'⟩ := ih vs c₁ back left (by simp [left]; omega) loop
        (by omega)
      rw [itemsAfter_of_kind here marked]
      refine ⟨a' :: as', c₂, ?_, by rw [List.map_cons, same, sames, List.map_cons], left'⟩
      exact bind_eq_ok.2 ⟨a', c₁, run, bind_eq_ok.2 ⟨as', c₂, runs, rfl⟩⟩

/-- Phrases with commas between them, up to a closing word. -/
theorem itemsUntil {phrase : Phrase} {close : TokenKind} {nodes : List Node} {item : Parser Node}
    {separator : Parser Unit} (listed : Listed phrase close nodes items)
    (apart : close ∉ phrase.starts)
    (restores : ∀ n rest, firstKind rest = .comma ∨ firstKind rest = close →
      Restores rounds Node.bare [.part phrase n] rest item n)
    (closed : ∀ c, c.nextKind = close → separator c = .ok () c)
    (separated : ∀ c t rest, c.rest = t :: rest → t.kind = .comma →
      separator c = .ok () (c.behind t rest))
    {ts loop : List Token} {c : Cursor} (written : WritesAll items ts) (here : c.rest = ts ++ more)
    (enough : c.rest.length ≤ rounds) (room : ts.length ≤ loop.length) :
    ∃ nodes' c', Parser.itemsUntil close item separator loop c = .ok nodes' c' ∧
      nodes'.map Node.bare = nodes.map Node.bare ∧ c'.rest = more := by
  have goesOn {n : Node} {us rest : List Token} {c : Cursor} (first : Writes phrase n us)
      (here : c.rest = us ++ rest) : c.nextKind ≠ close ∧ us ≠ [] := by
    obtain ⟨u, us, rfl, starts⟩ := first.starts
    refine ⟨fun same => apart ?_, List.cons_ne_nil u us⟩
    rw [← same, Cursor.nextKind_of_rest_cons here]
    exact starts
  induction listed generalizing ts c loop with
  | @close t closes =>
    obtain ⟨us, rfl, others⟩ := written.word_inv
    cases others
    cases loop with
    | nil => exact absurd room (Nat.not_succ_le_zero _)
    | cons round loop =>
      exact ⟨[], _, itemsUntil_of_kind here closes item separator round loop, rfl, rfl⟩
  | @last n t closes =>
    obtain ⟨us, tail, rfl, first, others⟩ := written.part_inv
    obtain ⟨none, rfl, nothing⟩ := others.word_inv
    cases nothing
    rw [List.append_assoc] at here
    obtain ⟨next, some⟩ := goesOn first here
    obtain ⟨n', c₁, run, same, left⟩ :=
      restores n (t :: more) (.inr closes) us c (.single first) here enough
    have longer := List.length_pos_iff.2 some
    rw [List.length_append, List.length_singleton] at room
    obtain ⟨round, loop, rfl⟩ := List.exists_cons_of_length_pos (by omega : 0 < loop.length)
    obtain ⟨round', loop, rfl⟩ := List.exists_cons_of_length_pos
      (by rw [List.length_cons] at room; omega : 0 < loop.length)
    rw [itemsUntil_of_ne next]
    refine ⟨[n'], c₁.behind t more, ?_, congrArg (· :: []) same, rfl⟩
    have ends := closed c₁ ((Cursor.nextKind_of_rest_cons left).trans closes)
    rw [bind_of_ok run, bind_of_ok ends, bind_of_ok (itemsUntil_of_kind left closes _ _ _ _)]
    rfl
  | @cons n ns items comma separates listed ih =>
    obtain ⟨us, tail, rfl, first, behind⟩ := written.part_inv
    obtain ⟨vs, rfl, others⟩ := behind.word_inv
    rw [List.append_assoc] at here
    obtain ⟨next, some⟩ := goesOn first here
    obtain ⟨n', c₁, run, same, left⟩ :=
      restores n (comma :: (vs ++ more)) (.inl separates) us c (.single first) here enough
    have longer := List.length_pos_iff.2 some
    rw [List.length_append, List.length_cons] at room
    obtain ⟨round, loop, rfl⟩ := List.exists_cons_of_length_pos (by omega : 0 < loop.length)
    have separate := separated c₁ comma (vs ++ more) left separates
    have fewer : (c₁.behind comma (vs ++ more)).rest.length ≤ rounds := by
      simp only [here, Cursor.rest_behind, List.length_append, List.length_cons] at enough ⊢
      omega
    obtain ⟨ns', c₂, runs, sames, left'⟩ := ih others rfl fewer
      (by rw [List.length_cons] at room; omega : vs.length ≤ loop.length)
    rw [itemsUntil_of_ne next]
    refine ⟨n' :: ns', c₂, ?_, by rw [List.map_cons, same, sames, List.map_cons], left'⟩
    rw [bind_of_ok run, bind_of_ok separate, bind_of_ok runs]
    rfl

theorem commaSequence {phrase : Phrase} {close : TokenKind} {nodes : List Node}
    {item : Parser Node} (listed : Listed phrase close nodes items) (setting : Setting)
    (other : close ≠ .comma) (apart : close ∉ phrase.starts)
    (restores : ∀ n rest, firstKind rest = .comma ∨ firstKind rest = close →
      Restores rounds Node.bare [.part phrase n] rest item n) :
    Restores rounds (List.map Node.bare) items more (Parser.commaSequence close setting item)
      nodes := by
  intro ts c written here enough
  unfold Parser.commaSequence
  rw [get_bind]
  refine itemsUntil listed apart restores ?_ ?_ written here enough ?_
  · intro c closes
    exact comma_of_close closes setting
  · intro c t rest ahead same
    exact comma_of_kind ahead same other setting
  · rw [TokenStream.rounds_cursor, here, List.length_append]
    exact Nat.le_add_right _ _

/-- What depends on the tokens ahead is read in front of those that were written. -/
theorem get {next : Cursor → Parser γ} (second : ∀ ts c, WritesAll items ts →
    c.rest = ts ++ more → Restores rounds g items more (next c) b) :
    Restores rounds g items more (MonadState.get >>= next) b :=
  fun ts c written here enough => second ts c written here ts c written here enough

theorem ite {condition : Prop} [Decidable condition] {q q' : Parser γ}
    (yes : condition → Restores rounds g items more q b)
    (no : ¬condition → Restores rounds g items more q' b) :
    Restores rounds g items more (if condition then q else q') b := by
  by_cases holds : condition
  · rw [if_pos holds]
    exact yes holds
  · rw [if_neg holds]
    exact no holds

theorem nextKind {kind : TokenKind} {next : TokenKind → Parser γ} (begins : Begin [kind] items more)
    (second : Restores rounds g items more (next kind) b) :
    Restores rounds g items more (Parser.nextKind >>= next) b := by
  intro ts c written here enough
  have same : c.nextKind = kind := by
    rw [Cursor.nextKind_eq, here]
    exact List.mem_singleton.1 (begins ts written)
  rw [bind_of_ok (nextKind_apply c), same]
  exact second ts c written here enough

theorem unlessAtEnd {phrase : Phrase} {n : Node} {item : Parser Node}
    (restores : Restores rounds Node.bare [.part phrase n] more item n) (wanted : Wanted) :
    Restores rounds Node.bare [.part phrase n] more (Parser.unlessAtEnd wanted item) n := by
  intro ts c written here enough
  obtain ⟨t, us, rfl, -⟩ := written.starts phrase n [] rfl
  rw [unlessAtEnd_of_rest_cons here]
  exact restores _ c written here enough

/-- Phrases without anything between them, up to the end of the block. -/
theorem sequence {phrase : Phrase} {item : Parser Node} {outdent : Token}
    (closes : outdent.kind = .outdent) (apart : .outdent ∉ phrase.starts)
    (restores : ∀ n rest, firstKind rest ∈ .outdent :: phrase.starts →
      Restores rounds Node.bare [.part phrase n] rest item n) (nodes : List Node) :
    Restores rounds (List.map Node.bare) (parts phrase nodes ++ [.word outdent]) more
      (Parser.sequence .outdent item) nodes := by
  intro ts c written here enough
  have room : ts.length ≤ c.rest.length := by
    rw [here, List.length_append]
    exact Nat.le_add_right _ _
  unfold Parser.sequence
  rw [get_bind, TokenStream.rounds_cursor]
  generalize c.rest = loop at room ⊢
  induction nodes generalizing ts c loop with
  | nil =>
    obtain ⟨none, rfl, nothing⟩ := written.word_inv
    cases nothing
    cases loop with
    | nil => exact absurd room (Nat.not_succ_le_zero _)
    | cons round loop => exact ⟨[], _, itemsUntil_of_kind here closes item _ round loop, rfl, rfl⟩
  | cons n nodes ih =>
    obtain ⟨us, vs, rfl, first, others⟩ := written.part_inv
    rw [List.append_assoc] at here
    obtain ⟨u, us', starts, member⟩ := first.starts
    have next : c.nextKind ≠ .outdent := by
      rw [starts] at here
      rw [Cursor.nextKind_of_rest_cons here]
      exact fun same => apart (same ▸ member)
    have some : 0 < us.length := by
      rw [starts]
      exact Nat.succ_pos _
    rw [List.length_append] at room
    obtain ⟨round, loop, rfl⟩ := List.exists_cons_of_length_pos (by omega : 0 < loop.length)
    obtain ⟨n', c₁, run, same, left⟩ := restores n (vs ++ more) (Begin.parts closes nodes vs others)
      us c (.single first) here enough
    have fewer : c₁.rest.length ≤ rounds := by
      rw [here, List.length_append] at enough
      rw [left]
      omega
    obtain ⟨nodes', c₂, runs, sames, left'⟩ := ih vs c₁ others left fewer loop
      (by rw [List.length_cons] at room; omega)
    rw [itemsUntil_of_ne next, bind_of_ok run, pure_bind, bind_of_ok runs]
    exact ⟨n' :: nodes', c₂, rfl, by rw [List.map_cons, same, sames, List.map_cons], left'⟩

/-- The block behind what a landmark describes. -/
theorem indented {phrase : Phrase} {nodes : List Node} {item : Parser Node}
    (indented : Block phrase nodes items) (landmark : Landmark) (apart : .outdent ∉ phrase.starts)
    (restores : ∀ n rest, firstKind rest ∈ .outdent :: phrase.starts →
      Restores rounds Node.bare [.part phrase n] rest item n) :
    Restores rounds (List.map Node.bare) items more
      (do
        openBlock landmark
        Parser.sequence .outdent item) nodes := by
  cases indented with
  | @mk newline indent outdent blank nodes line lines opens closes =>
    unfold openBlock
    rw [bind_assoc]
    refine .word line ?_
    rw [bind_assoc]
    have blanks : EachAfter .newline (fun (_ : Unit) items => items = []) (blank.map fun _ => ())
        (blank.map .word) := by
      induction blank with
      | nil => exact .nil
      | cons t blank ih =>
        obtain ⟨first, others⟩ := List.forall_mem_cons.1 lines
        exact @EachAfter.cons _ _ _ t () _ [] _ first rfl (ih others)
    refine .bind (a := blank.map fun _ => ()) (f := List.map id) (.word opens) ?_ fun _ _ => ?_
    · intro rest next
      refine .eachAfter blanks next (by decide) ?_
      rintro _ _ _ rfl _
      exact .pure ()
    · rw [bind_assoc]
      exact .word opens (.sequence closes apart restores nodes)

/-- What comes behind a block. -/
theorem behindBlock {nodes : List Node} {item : Parser Node} {landmark : Landmark}
    {next : List Node → Parser γ}
    (first : Restores rounds (List.map Node.bare) items more
      (do
        openBlock landmark
        Parser.sequence .outdent item) nodes)
    (second : ∀ nodes', nodes'.map Node.bare = nodes.map Node.bare →
      Restores rounds g [] more (next nodes') b) :
    Restores rounds g items more
      (do
        openBlock landmark
        next (← Parser.sequence .outdent item)) b := by
  have whole := first.last second
  rwa [bind_assoc] at whole

/-- A phrase other than an expression is restored if its items are, whatever its form. -/
theorem phraseAs {phrase : Phrase} {n : Node} {item : Parser γ} (make : Node → γ)
    (other : phrase ≠ .expression)
    (restores : ∀ id span form items, WrittenAs phrase form items →
      Restores rounds g items more item (make ⟨id, span, form⟩)) :
    Restores rounds g [.part phrase n] more item (make n) := by
  intro ts c written here enough
  obtain ⟨us, none, rfl, first, nothing⟩ := written.part_inv
  cases nothing
  rw [List.append_nil] at here
  cases first with
  | expression => exact absurd rfl other
  | phrase layout words => exact restores _ _ _ _ layout us c words here enough

theorem phrase {phrase : Phrase} {n : Node} {item : Parser Node} (other : phrase ≠ .expression)
    (restores : ∀ id span form items, WrittenAs phrase form items →
      Restores rounds Node.bare items more item ⟨id, span, form⟩) :
    Restores rounds Node.bare [.part phrase n] more item n :=
  phraseAs (fun n => n) other restores

end Restores

/-! ## Types and parameters -/

section Types

variable {rounds : Nat} {more : List Token} {items : List Item} {n : Node} {i : NodeId}
  {span : Span} {form : Form Node}

/-- The tokens that a type may go on with. -/
def typeMarks : List TokenKind := [.dot, .less, .leftBracket]

theorem expectAs_restores {kind : TokenKind} {t : Token} (word : IsWord kind t items)
    (wanted : Wanted) (setting : Setting) :
    Restores rounds id items more (expectAs kind wanted setting) t := by
  cases word with
  | mk same => exact .expectAs same wanted setting

theorem typeWith_restores {argument : Parser Node} (layout : WrittenAs .type form items)
    (apart : firstKind more ∉ typeMarks)
    (restores : ∀ n rest, firstKind rest = .comma ∨ firstKind rest = .greater →
      Restores rounds Node.bare [.part .type n] rest argument n) :
    Restores (rounds + 1) Node.bare items more (typeWith argument) ⟨i, span, form⟩ := by
  obtain ⟨noDot, noLess, noBracket⟩ :
      firstKind more ≠ .dot ∧ firstKind more ≠ .less ∧ firstKind more ≠ .leftBracket := by
    simpa [typeMarks] using apart
  cases layout with
  | @typeRef name others dots generics args pairs brackets named path arguments dimensions =>
    unfold typeWith
    refine .taken named ?_
    refine .bind (a := others) (f := List.map id)
      (.listAfter arguments (.lastEach dimensions (List.mem_singleton.2 rfl))) ?_ ?_
    · intro rest next
      refine .eachAfter path next ?_ fun _ _ _ word _ => expectAs_restores word _ _
      simp [noDot.symm]
    intro others' sameOthers
    refine .bind (a := generics) (f := List.map Node.bare)
      (.lastEach dimensions (List.mem_singleton.2 rfl)) ?_ ?_
    · intro rest next
      refine .optionalList arguments ?_ ?_
      · intro same
        simp [same, noLess.symm] at next
      · intro items listed
        exact .commaSequence listed _ (by decide) (by decide) restores
    intro generics' sameGenerics
    refine .last (a := pairs) (f := List.map id) ?_ ?_
    · exact .eachAfter dimensions (List.mem_singleton.2 rfl) (by simpa using noBracket.symm)
        fun _ _ _ word _ => expectAs_restores word _ _
    intro pairs' samePairs
    refine .spanned ?_
    simp_all [Form.map]

/-- A type is read with as many rounds as there are tokens. -/
theorem typeWithin_restores (loop : List Token) (apart : firstKind more ∉ typeMarks) :
    Restores loop.length Node.bare [.part .type n] more (typeWithin loop) n := by
  induction loop generalizing n more with
  | nil =>
    intro ts c written here enough
    obtain ⟨t, us, rfl, -⟩ := written.starts .type n [] rfl
    rw [here] at enough
    exact absurd enough (Nat.not_succ_le_zero _)
  | cons round loop ih =>
    refine .phrase (by decide) fun i span form items layout => ?_
    refine typeWith_restores layout apart fun n rest next => ih ?_
    rcases next with next | next <;> (rw [next]; decide)

theorem typeRef_restores (apart : firstKind more ∉ typeMarks) :
    Restores rounds Node.bare [.part .type n] more typeRef n := by
  intro ts c written here _
  exact typeWithin_restores c.rest apart ts c written here (Nat.le_refl _)

theorem typeRef_restores_isPart (part : IsPart .type n items) (apart : firstKind more ∉ typeMarks) :
    Restores rounds Node.bare items more typeRef n := by
  cases part with
  | mk => exact typeRef_restores apart

theorem genericParameter_restores
    (next : firstKind more = .comma ∨ firstKind more = .greater) :
    Restores rounds Node.bare [.part .generic n] more genericParameter n := by
  refine .phrase (by decide) fun i span form items layout => ?_
  cases layout with
  | @generic name bound items named bounded =>
    unfold genericParameter
    refine .word named ?_
    refine .last (a := bound) (f := Option.map Node.bare) ?_ ?_
    · refine .optional bounded ?_ fun _ _ part => typeRef_restores_isPart part ?_
      all_goals rcases next with next | next <;> (rw [next]; decide)
    intro bound' sameBound
    refine .spanned ?_
    simp_all [Form.map]

theorem genericParameters_restores {generics : List Node}
    (angles : InAngles .generic generics items) (apart : firstKind more ≠ .less) :
    Restores rounds (List.map Node.bare) items more genericParameters generics :=
  .optionalList angles apart fun _ listed => .commaSequence listed _ (by decide) (by decide)
    fun _ _ next => genericParameter_restores next

theorem parameter_restores (next : firstKind more = .comma ∨ firstKind more = .rightParen) :
    Restores rounds Node.bare [.part .parameter n] more parameter n := by
  refine .phrase (by decide) fun i span form items layout => ?_
  cases layout with
  | @parameter name colon type named announces =>
    unfold parameter
    refine .word named (.word announces ?_)
    refine .last (a := type) (f := Node.bare) (typeRef_restores ?_) ?_
    · rcases next with next | next <;> (rw [next]; decide)
    intro type' sameType
    refine .spanned ?_
    simp_all [Form.map]

theorem parameters_restores {params : List Node}
    (listed : Listed .parameter .rightParen params items) :
    Restores rounds (List.map Node.bare) items more parameters params :=
  .commaSequence listed _ (by decide) (by decide) fun _ _ next => parameter_restores next

/-- A name and its type are restored in front of what goes on with neither. -/
theorem typedName_restores {word : TokenKind} {name : Token} {type : Option Node}
    {kinds : List TokenKind} {γ δ : Type} {g : γ → δ} {b : γ} {ys : List Item}
    {next : Token × Option Node → Parser γ} (named : name.kind = .identifier)
    (annotated : Annotation type items) (behind : Begin kinds ys more)
    (apart : ∀ kind ∈ kinds, kind ∉ .colon :: typeMarks)
    (second : ∀ type', type'.map Node.bare = type.map Node.bare →
      Restores rounds g ys more (next (name, type')) b) :
    Restores rounds g (.word name :: (items ++ ys)) more (typedName word >>= next) b := by
  unfold typedName
  rw [bind_assoc]
  refine .word named ?_
  rw [bind_assoc]
  refine .bind (a := type) (f := Option.map Node.bare) behind ?_ ?_
  · intro rest next
    have other := apart _ next
    exact .optional annotated (List.ne_of_not_mem_cons other) fun _ _ part =>
      typeRef_restores_isPart part (List.not_mem_of_not_mem_cons other)
  · intro type' sameType
    rw [pure_bind]
    exact second type' sameType

end Types

end Parser

end TekLang
