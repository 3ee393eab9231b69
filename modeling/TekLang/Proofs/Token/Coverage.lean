import TekLang.Proofs.Token.Joining
import TekLang.Proofs.Token.Order
import TekLang.Proofs.Token.Rereading

/-!
# No text is lost

Every character of a text lies in a word, in a report, between the words or in a comment, with one
exception: a carriage return in the margin of a line hides the rest of the line, whatever stands
there. `Accounts` says what may become of a character, `Hidden` is the exception, and
`lex_accounts_iff` that there is no other.
-/

namespace TekLang

/-- A place lies in a span. -/
def Span.Covers (s : Span) (p : Position) : Prop := s.start ≤ p ∧ p < s.stop

/-- A character that separates words or lines. -/
def IsBlank (c : Char) : Prop := c = ' ' ∨ c = '\t' ∨ c = '\r' ∨ c = '\n'

instance (c : Char) : Decidable (IsBlank c) := inferInstanceAs (Decidable (_ ∨ _))

/-- A word or a report is about the place. -/
def Lexed.Shows (lexed : Lexed) (place : Position) : Prop :=
  (∃ t ∈ lexed.tokens, t.kind.isLayout = false ∧ t.span.Covers place) ∨
    ∃ d ∈ lexed.diagnostics, d.span.Covers place

/-- What becomes of a character of a text that stands behind the characters `before`. -/
inductive Lexed.Accounts (lexed : Lexed) (before : List Char) (c : Char) : Prop
  | shown (shown : lexed.Shows (Position.origin.behind before)) : Accounts lexed before c
  | blank (blank : IsBlank c) : Accounts lexed before c
  /-- It stands in a comment, whose mark is part of no string. -/
  | comment {front inside : List Char} (split : before ++ [c] = front ++ '#' :: inside)
      (sameLine : '\n' ∉ inside) (mark : ¬ lexed.Shows (Position.origin.behind front)) :
      Accounts lexed before c

/-- Behind these characters of a text a line begins, and not between brackets. -/
def StartsLine (front : List Char) : Prop :=
  front = [] ∨
    front.getLast? = some '\n' ∧ openBrackets (lex (String.ofList front)).tokens = 0

/-- A character is lost: only blanks stand in its line in front of a carriage return, and between
    this and the character there is no comment mark. -/
inductive Hidden (before : List Char) (c : Char) : Prop
  | mk {line margin passed : List Char} (split : before = line ++ (margin ++ '\r' :: passed))
      (starts : StartsLine line) (blank : ∀ m ∈ margin, m = ' ' ∨ m = '\t')
      (sameLine : '\n' ∉ passed) (noComment : '#' ∉ passed) (noMark : c ≠ '#')
      (visible : ¬ IsBlank c) : Hidden before c

namespace Piece

/-- The piece is a word or a report and about the place. -/
def Shows (p : Piece) (place : Position) : Prop :=
  match p with
  | token t => t.kind.isLayout = false ∧ t.span.Covers place
  | fault _ span => span.Covers place

theorem Shows.covers {p : Piece} {place : Position} (shows : p.Shows place) :
    p.span.Covers place := by
  cases p with
  | token => exact shows.2
  | fault => exact shows

end Piece

theorem shows_lex_iff {source : String} {place : Position} :
    (lex source).Shows place ↔ ∃ p ∈ pieces source, p.Shows place := by
  constructor
  · rintro (⟨t, there, shows⟩ | ⟨d, there, covers⟩)
    · exact ⟨.token t, mem_tokensOf.1 there, shows⟩
    · obtain ⟨p, among, told⟩ := List.mem_filterMap.1 there
      cases p with
      | token => cases told
      | fault fault span =>
        cases told
        exact ⟨_, among, covers⟩
  · rintro ⟨p, there, shows⟩
    cases p with
    | token t => exact .inl ⟨t, mem_tokensOf.2 there, shows⟩
    | fault fault span => exact .inr ⟨_, List.mem_filterMap.2 ⟨_, there, rfl⟩, shows⟩

/-- All of a word shows when it settles. -/
theorem Lexeme.settle_shows {l : Lexeme} {stop place : Position} (spelt : l.IsSpelt)
    (low : l.start ≤ place) (high : place < stop) : ∃ p ∈ l.settle stop, p.Shows place := by
  have covers : (⟨l.start, stop⟩ : Span).Covers place := ⟨low, high⟩
  unfold IsSpelt at spelt
  unfold settle
  split
  case h_1 kind shape =>
    rw [shape] at spelt
    exact ⟨_, List.mem_cons_self, spelt, covers⟩
  case h_2 => exact ⟨_, List.mem_cons_self, TokenKind.isLayout_ofWord _, covers⟩
  case h_3 => exact ⟨_, List.mem_cons_self, rfl, covers⟩
  case h_4 dot shape =>
    rcases Position.lt_or_le place dot with front | behind
    · exact ⟨_, List.mem_cons_self, rfl, low, front⟩
    · exact ⟨_, List.mem_cons_of_mem _ List.mem_cons_self, rfl, behind, high⟩
  case h_5 kind _ shape =>
    rw [shape] at spelt
    exact ⟨_, List.mem_cons_self, spelt.1 kind rfl, covers⟩
  case h_6 | h_7 | h_8 => exact ⟨_, List.mem_cons_self, covers⟩

namespace Scan

theorem next_step (s : Scan) (c : Char) : (s.step c).1.next = s.next.after c := rfl

theorem next_read (s : Scan) (cs : List Char) :
    (s.read cs).1.next = s.next.behind cs := by
  induction cs generalizing s with
  | nil => rfl
  | cons c cs ih => exact ih _

theorem read_concat (s : Scan) (cs : List Char) (c : Char) :
    (s.read (cs ++ [c])).1 = ((s.read cs).1.step c).1 := by
  rw [read_append]
  rfl

/-- A character goes on with the word that is being read, or ends it. -/
theorem step_insideWord {s : Scan} {l : Lexeme} (inside : s.place = .insideWord l) (c : Char) :
    (∃ longer, l.extend? s.next c = some longer ∧ (s.step c).1.place = .insideWord longer) ∨
      ∃ new, (s.step c).2 = s.settleWord.2 ++ new := by
  rcases s.step_cases c with consumed | ⟨after, new, -, stepped⟩
  · generalize s.step c = result at consumed
    obtain ⟨after, new⟩ := result
    cases consumed with
    | pass outside | endLine outside => exact absurd inside (outside l)
    | widen place | enter place => exact absurd (inside.symm.trans place) Place.insideWord_ne_margin
    | begin place => exact absurd inside (outside_of_betweenWords place l)
    | extend place extended =>
      cases inside.symm.trans place
      exact .inl ⟨_, extended, rfl⟩
  · rw [stepped]
    exact .inr ⟨new, rfl⟩

/-- All of a word that is being read shows when the text is read. -/
theorem piecesOf_shows {s : Scan} {l : Lexeme} (inside : s.place = .insideWord l)
    (spelt : l.IsSpelt) {place : Position} (low : l.start ≤ place) (high : place < s.next)
    (cs : List Char) : ∃ p ∈ s.piecesOf cs, p.Shows place := by
  have settles : ∃ p ∈ s.settleWord.2, p.Shows place := by
    rw [settleWord_of_insideWord inside]
    exact l.settle_shows spelt low high
  induction cs generalizing s l with
  | nil =>
    obtain ⟨p, there, shows⟩ := settles
    refine ⟨p, ?_, shows⟩
    rw [piecesOf, read, List.nil_append, finish_eq]
    exact List.mem_append_left _ there
  | cons c cs ih =>
    rw [piecesOf_cons]
    rcases step_insideWord inside c with ⟨longer, extended, place'⟩ | ⟨new, stepped⟩
    · have spelt' := spelt.extend extended
      have low' : longer.start ≤ place := by
        rw [(Lexeme.start_of_extend? extended).1]
        exact low
      have high' := Position.lt_of_lt_of_le high (Position.le_after s.next c)
      have settles' : ∃ p ∈ (s.step c).1.settleWord.2, p.Shows place := by
        rw [settleWord_of_insideWord place']
        exact longer.settle_shows spelt' low' high'
      obtain ⟨p, there, shows⟩ := ih place' spelt' low' high' settles'
      exact ⟨p, List.mem_append_right _ there, shows⟩
    · obtain ⟨p, there, shows⟩ := settles
      rw [stepped]
      exact ⟨p, List.mem_append_left _ (List.mem_append_left _ there), shows⟩

/-- What a character does it does to the scan itself or to one that stands between words now. -/
theorem exists_consumes (s : Scan) (c : Char) : ∃ t new, Consumes c t (s.step c).1 new ∧
    (t.place ≠ .betweenWords → s.place = t.place) := by
  rcases s.step_cases c with consumed | ⟨after, new, consumed, stepped⟩
  · exact ⟨s, _, consumed, fun _ => rfl⟩
  · rw [stepped]
    refine ⟨s.settleWord.1, new, consumed, ?_⟩
    unfold settleWord
    split
    · exact absurd rfl
    · exact fun _ => rfl

/-- A scan that stands in the margin of a line behind a character began the line with it or was in
    the margin before. -/
theorem place_of_margin {s : Scan} {c : Char} {start : Position} {width : Nat}
    (place : (s.step c).1.place = .margin start width) :
    c = '\n' ∧ width = 0 ∨
      (c = ' ' ∨ c = '\t') ∧ 0 < width ∧ ∃ before, s.place = .margin start before := by
  obtain ⟨t, new, consumed, same⟩ := s.exists_consumes c
  generalize (s.step c).1 = after at consumed place
  cases consumed with
  | pass _ passes => rcases passes.quiet with rfl | rfl <;> cases place
  | widen before blank =>
    cases place
    rw [before] at same
    have more : 0 < width ∧ (c = ' ' ∨ c = '\t') := by
      rcases blank with ⟨blank, rfl⟩ | ⟨blank, rfl⟩
      · exact ⟨Nat.succ_pos _, .inl blank⟩
      · exact ⟨Nat.succ_pos _, .inr blank⟩
    exact .inr ⟨more.2, more.1, _, same Place.noConfusion⟩
  | endLine _ feed =>
    cases place
    exact .inl ⟨feed, rfl⟩
  | begin | enter | extend => exact absurd place Place.insideWord_ne_margin

theorem isBlank_of_betweenWords {s : Scan} {c : Char}
    (place : (s.step c).1.place = .betweenWords) : IsBlank c := by
  obtain ⟨t, new, consumed, -⟩ := s.exists_consumes c
  generalize (s.step c).1 = after at consumed place
  cases consumed with
  | pass _ passes =>
    cases place
    cases passes with
    | blank blank => exact blank
  | widen | endLine | begin | enter | extend => cases place

/-- What opens a comment or is part of one, or hides the rest of the line. -/
theorem place_of_insideComment {s : Scan} {c : Char}
    (place : (s.step c).1.place = .insideComment) :
    c = '#' ∨ (c = '\r' ∧ ∃ start width, s.place = .margin start width) ∨
      (s.place = .insideComment ∧ c ≠ '\n') := by
  obtain ⟨t, new, consumed, same⟩ := s.exists_consumes c
  generalize (s.step c).1 = after at consumed place
  cases consumed with
  | pass _ passes =>
    cases place
    cases passes with
    | comment mark => exact .inl mark
    | margin before mark =>
      rw [before] at same
      exact .inr (.inl ⟨mark, _, _, same Place.noConfusion⟩)
    | goesOn before sameLine =>
      rw [before] at same
      exact .inr (.inr ⟨same Place.noConfusion, sameLine⟩)
  | widen | endLine | begin | enter | extend => cases place

theorem Orders.restart {low : Position} {s : Scan} {ps : List Piece} (orders : s.Orders low ps) :
    s.Orders s.edge [] :=
  ⟨.nil _ _, Position.le_refl _, orders.edge_le, orders.reading⟩

/-- Everything that is settled from here on starts no earlier than the edge. -/
theorem Orders.edge_le_piecesOf {low : Position} {s : Scan} {ps : List Piece}
    (orders : s.Orders low ps) (cs : List Char) :
    ∀ p ∈ s.piecesOf cs, s.edge ≤ p.span.start := by
  have whole := (orders.restart.read cs).finish
  rw [List.nil_append] at whole
  exact whole.low

/-- The word that a character belongs to starts no later than the character. -/
theorem Orders.start_le {low : Position} {s : Scan} {ps : List Piece} (orders : s.Orders low ps)
    {c : Char} {l : Lexeme} (inside : (s.step c).1.place = .insideWord l) : l.start ≤ s.next := by
  rcases s.step_cases c with consumed | ⟨after, new, consumed, stepped⟩
  · rcases consumed.reading inside with ⟨-, rfl⟩ | ⟨shorter, place, extended⟩
    · exact Position.le_refl _
    · rw [(Lexeme.start_of_extend? extended).1]
      exact Position.le_of_lt (orders.reading shorter place).start
  · rw [stepped] at inside
    rcases consumed.reading inside with ⟨-, rfl⟩ | ⟨shorter, place, -⟩
    · rw [next_settleWord]
      exact Position.le_refl _
    · exact absurd place (s.outside_settleWord shorter)

/-- A character that opens a comment or is part of one shows nowhere. -/
theorem not_shows_of_insideComment {s : Scan} {ps : List Piece} (orders : s.Orders .origin ps)
    {c : Char} (place : (s.step c).1.place = .insideComment) (cs : List Char) :
    ∀ p ∈ ps ++ s.piecesOf (c :: cs), ¬ p.Shows s.next := by
  have front : ∀ p ∈ ps ++ (s.step c).2, p.span.stop ≤ s.next := by
    rcases s.step_cases c with consumed | ⟨after, new, consumed, stepped⟩
    · generalize s.step c = result at consumed place
      obtain ⟨after, new⟩ := result
      cases consumed with
      | pass =>
        rw [List.append_nil]
        exact fun p there => Position.le_trans (orders.settled.high p there) orders.edge_le
      | widen | endLine | begin | enter | extend => cases place
    · rw [stepped] at place ⊢
      have settled := orders.settle
      cases consumed with
      | pass =>
        rw [List.append_nil]
        have edge := settled.edge_le
        rw [next_settleWord] at edge
        exact fun p there => Position.le_trans (settled.settled.high p there) edge
      | widen | endLine | begin | enter | extend => cases place
  have behind := (orders.read [c]).edge_le_piecesOf cs
  have edge : (s.read [c]).1.edge = s.next.after c := edge_quiet (.inr place)
  rw [edge] at behind
  rw [piecesOf_cons, ← List.append_assoc]
  intro p there shows
  obtain ⟨low, high⟩ := shows.covers
  rcases List.mem_append.1 there with there | there
  · exact Position.lt_irrefl _ (Position.lt_of_lt_of_le high (front p there))
  · have start := Position.le_trans (behind p there) low
    exact Position.lt_irrefl _ (Position.lt_of_lt_of_le (Position.lt_after _ c) start)

/-- Reading on in a comment up to the end of the line. -/
theorem read_insideComment {s : Scan} (place : s.place = .insideComment) {cs : List Char}
    (sameLine : '\n' ∉ cs) : (s.read cs).1.place = .insideComment := by
  induction cs generalizing s with
  | nil => exact place
  | cons c cs ih =>
    obtain ⟨other, sameLine⟩ := List.ne_and_not_mem_of_not_mem_cons sameLine
    refine ih ?_ sameLine
    simp [step, take, place, other.symm]

/-- Reading blanks in the margin of a line. -/
theorem read_margin {s : Scan} {start : Position} {width : Nat}
    (place : s.place = .margin start width) {cs : List Char}
    (blank : ∀ c ∈ cs, c = ' ' ∨ c = '\t') :
    ∃ width, (s.read cs).1.place = .margin start width := by
  induction cs generalizing s width with
  | nil => exact ⟨width, place⟩
  | cons c cs ih =>
    obtain ⟨first, others⟩ := List.forall_mem_cons.1 blank
    have widened : ∃ width, (s.step c).1.place = .margin start width := by
      rcases first with rfl | rfl <;> simp [step, take, place, stepMargin]
    obtain ⟨width, place⟩ := widened
    exact ih place others

/-- In the margin of a line a carriage return hides the rest of it. -/
theorem step_return {s : Scan} {start : Position} {width : Nat}
    (place : s.place = .margin start width) : (s.step '\r').1.place = .insideComment := by
  simp [step, take, place, stepMargin]

theorem read_mark {front passed : List Char} {mark : Char}
    (opened : ((initial.read front).1.step mark).1.place = .insideComment)
    (sameLine : '\n' ∉ passed) :
    (initial.read (front ++ mark :: passed)).1.place = .insideComment := by
  rw [List.append_cons, read_append, read_concat]
  exact read_insideComment opened sameLine

/-- The margin of a line is all of it so far. -/
theorem margin_read {cs : List Char} {start : Position} {width : Nat}
    (place : (initial.read cs).1.place = .margin start width) :
    ∃ line margin, cs = line ++ margin ∧ (∃ start, (initial.read line).1.place = .margin start 0) ∧
      ∀ m ∈ margin, m = ' ' ∨ m = '\t' := by
  induction cs using List.reverseRecOn generalizing start width with
  | nil => exact ⟨[], [], rfl, ⟨_, rfl⟩, List.forall_mem_nil _⟩
  | append_singleton cs c ih =>
    have reached := place
    rw [read_concat] at place
    rcases place_of_margin place with ⟨rfl, rfl⟩ | ⟨blank, -, before, place⟩
    · exact ⟨cs ++ ['\n'], [], by simp, ⟨start, reached⟩, List.forall_mem_nil _⟩
    · obtain ⟨line, margin, rfl, starts, blanks⟩ := ih place
      refine ⟨line, margin ++ [c], by simp, starts, ?_⟩
      exact List.forall_mem_append.2 ⟨blanks, List.forall_mem_singleton.2 blank⟩

/-- What is read as a comment follows a mark or a carriage return in the margin of its line. -/
theorem comment_read {cs : List Char} (place : (initial.read cs).1.place = .insideComment) :
    ∃ front mark passed, cs = front ++ mark :: passed ∧ '\n' ∉ passed ∧
      ((initial.read front).1.step mark).1.place = .insideComment ∧
      (mark = '#' ∨
        mark = '\r' ∧ ∃ start width, (initial.read front).1.place = .margin start width) := by
  induction cs using List.reverseRecOn with
  | nil => cases place
  | append_singleton cs c ih =>
    rw [read_concat] at place
    rcases place_of_insideComment place with mark | ⟨mark, margin⟩ | ⟨inside, sameLine⟩
    · exact ⟨cs, c, [], rfl, List.not_mem_nil, place, .inl mark⟩
    · exact ⟨cs, c, [], rfl, List.not_mem_nil, place, .inr ⟨mark, margin⟩⟩
    · obtain ⟨front, mark, passed, rfl, feedless, opened, kind⟩ := ih inside
      refine ⟨front, mark, passed ++ [c], by simp, ?_, opened, kind⟩
      intro feed
      rcases List.mem_append.1 feed with feed | feed
      · exact feedless feed
      · exact sameLine (List.mem_singleton.1 feed).symm

end Scan

/-- A line begins where the scan stands in the margin of one that has no width yet. -/
theorem startsLine_iff {line : List Char} :
    StartsLine line ↔ ∃ start, (Scan.initial.read line).1.place = .margin start 0 := by
  have closed : openBrackets (lex (String.ofList line)).tokens =
      openBrackets (tokensOf (Scan.initial.piecesOf line)) := by
    rw [tokens_lex, Scan.pieces_eq_piecesOf, String.toList_ofList]
  constructor
  · rintro (rfl | ⟨feed, flat⟩)
    · exact ⟨_, rfl⟩
    · rw [closed] at flat
      exact (Scan.atStart_read feed flat).place
  · rintro ⟨start, place⟩
    rcases List.eq_nil_or_concat' line with rfl | ⟨front, c, rfl⟩
    · exact .inl rfl
    · right
      rw [closed, ← Scan.nesting_read (Scan.outside_of_margin place)]
      obtain ⟨-, -, -, -, counts⟩ := Scan.inLines_read (front ++ [c])
      refine ⟨?_, counts.margin _ _ place⟩
      rw [Scan.read_concat] at place
      rcases Scan.place_of_margin place with ⟨rfl, -⟩ | ⟨-, wide, -⟩
      · exact List.getLast?_concat
      · exact absurd wide (Nat.lt_irrefl 0)

section Text

variable {source : String} {before after : List Char} {c : Char}

theorem pieces_split (split : source.toList = before ++ after) :
    pieces source =
      (Scan.initial.read before).2 ++ (Scan.initial.read before).1.piecesOf after := by
  rw [Scan.pieces_eq_piecesOf, split, Scan.piecesOf_append]

theorem orders_read (cs : List Char) :
    (Scan.initial.read cs).1.Orders .origin (Scan.initial.read cs).2 :=
  Scan.orders_initial.read cs

/-- A character that opens a comment or is part of one shows nowhere. -/
theorem not_shows_lex (split : source.toList = before ++ c :: after)
    (place : ((Scan.initial.read before).1.step c).1.place = .insideComment) :
    ¬ (lex source).Shows (Position.origin.behind before) := by
  have none := Scan.not_shows_of_insideComment (orders_read before) place after
  rw [Scan.next_read, ← pieces_split split] at none
  intro shows
  obtain ⟨p, there, shows⟩ := shows_lex_iff.1 shows
  exact none p there shows

/-- A character of a word shows. -/
theorem shows_lex {l : Lexeme} (split : source.toList = before ++ c :: after)
    (inside : ((Scan.initial.read before).1.step c).1.place = .insideWord l) :
    (lex source).Shows (Position.origin.behind before) := by
  have low := (orders_read before).start_le inside
  have high := Position.lt_after (Scan.initial.read before).1.next c
  rw [← Scan.read_concat] at inside
  obtain ⟨_, _, _, line, -⟩ := Scan.inLines_read (before ++ [c])
  have next : (Scan.initial.read before).1.next = Position.origin.behind before :=
    Scan.next_read _ _
  have here : (Scan.initial.read (before ++ [c])).1.next =
      (Scan.initial.read before).1.next.after c := by
    rw [Scan.read_concat, Scan.next_step]
  rw [← here] at high
  rw [next] at low high
  obtain ⟨p, there, shows⟩ := Scan.piecesOf_shows inside (line.reading l inside) low high after
  refine shows_lex_iff.2 ⟨p, ?_, shows⟩
  have split' : source.toList = (before ++ [c]) ++ after := split.trans (List.append_cons ..)
  rw [pieces_split split']
  exact List.mem_append_right _ there

/-- The mark of a comment is part of no word and of no report, so its line is accounted for. -/
theorem accounts_of_mark {front passed : List Char} (split : source.toList = before ++ c :: after)
    (marked : before ++ [c] = front ++ '#' :: passed) (sameLine : '\n' ∉ passed)
    (place : ((Scan.initial.read front).1.step '#').1.place = .insideComment) :
    (lex source).Accounts before c := by
  have whole : source.toList = front ++ '#' :: (passed ++ after) := by
    rw [split, List.append_cons, marked]
    simp
  exact .comment marked sameLine (not_shows_lex whole place)

/-- A character that is not accounted for is hidden. -/
theorem accounts_or_hidden (split : source.toList = before ++ c :: after) :
    (lex source).Accounts before c ∨ Hidden before c := by
  cases place : ((Scan.initial.read before).1.step c).1.place with
  | margin start width =>
    left
    rcases Scan.place_of_margin place with ⟨feed, -⟩ | ⟨blank, -⟩
    · exact .blank (.inr (.inr (.inr feed)))
    · rcases blank with blank | blank
      · exact .blank (.inl blank)
      · exact .blank (.inr (.inl blank))
  | betweenWords => exact .inl (.blank (Scan.isBlank_of_betweenWords place))
  | insideWord l => exact .inl (.shown (shows_lex split place))
  | insideComment =>
    rw [← Scan.read_concat] at place
    obtain ⟨front, mark, passed, marked, sameLine, opened, kind⟩ := Scan.comment_read place
    rcases kind with rfl | ⟨rfl, start, width, margin⟩
    · exact .inl (accounts_of_mark split marked sameLine opened)
    · by_cases comment : '#' ∈ passed
      · -- behind the carriage return a comment begins all the same
        left
        obtain ⟨left, right, rfl⟩ := List.append_of_mem comment
        have sameLine' : '\n' ∉ left ++ ['#'] := by
          intro feed
          exact sameLine (by simp_all)
        have inside := Scan.read_mark opened sameLine'
        have shift : front ++ '\r' :: (left ++ ['#']) = (front ++ '\r' :: left) ++ ['#'] := by simp
        rw [shift, Scan.read_concat] at inside
        have behind : '\n' ∉ right := by
          intro feed
          exact sameLine (List.mem_append_right _ (List.mem_cons_of_mem _ feed))
        refine accounts_of_mark split ?_ behind inside
        rw [marked]
        simp
      · rcases List.eq_nil_or_concat' passed with rfl | ⟨passed, d, rfl⟩
        · obtain ⟨-, same⟩ := List.append_inj' marked rfl
          exact .inl (.blank (.inr (.inr (.inl (List.singleton_inj.1 same)))))
        · have split' : before ++ [c] = (front ++ '\r' :: passed) ++ [d] := by simpa using marked
          obtain ⟨rfl, same⟩ := List.append_inj' split' rfl
          obtain rfl := List.singleton_inj.1 same
          by_cases blank : IsBlank c
          · exact .inl (.blank blank)
          · right
            obtain ⟨line, margin, rfl, starts, blanks⟩ := Scan.margin_read margin
            refine .mk (List.append_assoc ..) (startsLine_iff.2 starts) blanks ?_ ?_ ?_ blank
            · exact fun feed => sameLine (List.mem_append_left _ feed)
            · exact fun mark => comment (List.mem_append_left _ mark)
            · exact fun mark => comment (by simp [mark])

/-- Behind a line there is a comment mark in what follows it, if there is one on the same line. -/
theorem mem_of_mark {line rest front inside : List Char}
    (split : line ++ rest = front ++ '#' :: inside)
    (starts : StartsLine line) (sameLine : '\n' ∉ inside) : '#' ∈ rest := by
  rcases List.append_eq_append_iff.1 split with ⟨more, -, rest⟩ | ⟨more, rfl, marked⟩
  · simp [rest]
  · cases more with
    | nil =>
      rw [List.nil_append] at marked
      rw [← marked]
      exact List.mem_cons_self
    | cons d more =>
      obtain ⟨rfl, rfl⟩ := List.cons.inj marked
      rcases starts with empty | ⟨feed, -⟩
      · simp at empty
      · rw [List.getLast?_append_cons] at feed
        rcases List.mem_cons.1 (List.mem_of_getLast? feed) with same | feed
        · cases same
        · exact absurd (List.mem_append_left _ feed) sameLine

/-- A hidden character is not accounted for. -/
theorem not_accounts_of_hidden (split : source.toList = before ++ c :: after)
    (hidden : Hidden before c) : ¬ (lex source).Accounts before c := by
  obtain ⟨rfl, starts, blank, sameLine, noComment, noMark, visible⟩ := hidden
  rename_i line margin passed
  have noFeed : '\n' ∉ passed ++ [c] := by
    intro feed
    rcases List.mem_append.1 feed with feed | feed
    · exact sameLine feed
    · exact visible (.inr (.inr (.inr (List.mem_singleton.1 feed).symm)))
  have place : (Scan.initial.read (line ++ (margin ++ '\r' :: passed) ++ [c])).1.place =
      .insideComment := by
    obtain ⟨start, begun⟩ := startsLine_iff.1 starts
    obtain ⟨width, widened⟩ := Scan.read_margin begun blank
    have reached : (Scan.initial.read (line ++ margin)).1.place = .margin start width := by
      rw [Scan.read_append]
      exact widened
    have inside := Scan.read_mark (Scan.step_return reached) noFeed
    simpa using inside
  rintro (shown | blank' | ⟨marked, feedless, -⟩)
  · rw [Scan.read_concat] at place
    exact not_shows_lex split place shown
  · exact visible blank'
  · rw [List.append_assoc] at marked
    have mark := mem_of_mark marked starts feedless
    rw [List.append_assoc, List.cons_append, List.mem_append, List.mem_cons,
      List.mem_append] at mark
    rcases mark with mark | mark | mark | mark
    · rcases blank '#' mark with same | same <;> cases same
    · cases mark
    · exact noComment mark
    · exact noMark (List.mem_singleton.1 mark).symm

/-- A character of a text is accounted for, unless a carriage return in the margin of its line hides
    it. -/
theorem lex_accounts_iff (split : source.toList = before ++ c :: after) :
    (lex source).Accounts before c ↔ ¬ Hidden before c := by
  constructor
  · intro accounts hidden
    exact not_accounts_of_hidden split hidden accounts
  · intro visible
    exact (accounts_or_hidden split).resolve_right visible

theorem lex_accounts_iff_comment :
    "a # b\n".toList = ['a', ' ', '#', ' '] ++ 'b' :: ['\n'] ∧
      ((lex "a # b\n").Accounts ['a', ' ', '#', ' '] 'b' ↔ ¬ Hidden ['a', ' ', '#', ' '] 'b') :=
  ⟨rfl, lex_accounts_iff rfl⟩

/-- A name behind a carriage return in the margin of its line is lost. -/
theorem not_accounts_return : ¬ (lex "\rx\n").Accounts ['\r'] 'x' := by
  have split : "\rx\n".toList = ['\r'] ++ 'x' :: ['\n'] := rfl
  have front : ['\r'] = [] ++ ([] ++ '\r' :: []) := rfl
  refine not_accounts_of_hidden split (.mk front (.inl rfl) (List.forall_mem_nil _) ?_ ?_ ?_ ?_) <;>
    decide

end Text

end TekLang
