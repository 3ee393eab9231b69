import TekLang.Token.Lexeme

/-!
# The shapes of lexemes

What the first character of a word makes of it, and what a further character does to it. Both are
told once, as relations with one case each way a word can begin or go on; whatever holds of all
words is proved along them.
-/

namespace TekLang

namespace TokenKind

/-- The kinds that are spelt with signs. -/
def isMark : TokenKind → Bool
  | leftParen | rightParen | leftBracket | rightBracket | comma | dot | colon
  | plus | minus | star | slash | percent | caret
  | equal | equalEqual | bangEqual | less | lessEqual | greater | greaterEqual => true
  | _ => false

theorem isLayout_of_isMark {kind : TokenKind} (mark : kind.isMark = true) :
    kind.isLayout = false := by
  cases kind <;> first | rfl | cases mark

theorem isLayout_of_mem_keywords : ∀ kind ∈ keywords, kind.isLayout = false := by decide

/-- A word is a truth value, a reserved word or a name. -/
theorem ofWord_cases (word : String) :
    ofWord word = boolean ∨ (∃ kind ∈ keywords, kind.describe = word ∧ ofWord word = kind) ∨
      ((∀ kind ∈ keywords, kind.describe ≠ word) ∧ ofWord word = identifier) := by
  unfold ofWord
  by_cases truth : word = "true" ∨ word = "false"
  · exact .inl (if_pos truth)
  · rw [if_neg truth]
    cases found : keywords.find? (·.describe = word) with
    | none =>
      refine .inr (.inr ⟨?_, rfl⟩)
      intro kind member same
      have other := List.find?_eq_none.1 found kind member
      simp [same] at other
    | some kind =>
      have spelt := List.find?_some found
      exact .inr (.inl ⟨kind, List.mem_of_find?_eq_some found, by simpa using spelt, rfl⟩)

theorem isLayout_ofWord (word : String) : (ofWord word).isLayout = false := by
  rcases ofWord_cases word with kind | ⟨kind, member, -, same⟩ | ⟨-, kind⟩
  · rw [kind]
    rfl
  · rw [same]
    exact isLayout_of_mem_keywords kind member
  · rw [kind]
    rfl

end TokenKind

/-- The ways a word can begin. -/
inductive Shape.Begins (c : Char) : Shape → Prop
  | mark {kind : TokenKind} (mark : kind.isMark = true) : Begins c (.whole kind)
  | sign {alone : Option TokenKind} {withEqual : TokenKind}
      (mark : ∀ kind, alone = some kind → kind.isMark = true)
      (markWithEqual : withEqual.isMark = true) : Begins c (.sign alone withEqual)
  | quote (quote : c = '"' ∨ c = '\'') : Begins c (.quoted c false)
  | number (digit : c.isDigit = true) : Begins c (.number false)
  | word (start : isWordStart c = true) : Begins c .word
  | foreign : Begins c .foreign

theorem Shape.begins_ofChar (c : Char) : Begins c (ofChar c) := by
  unfold ofChar
  split
  case h_20 =>
    by_cases digit : c.isDigit
    · rw [if_pos digit]
      exact .number digit
    · rw [if_neg digit]
      by_cases start : isWordStart c
      · rw [if_pos start]
        exact .word start
      · rw [if_neg start]
        exact .foreign
  case h_14 | h_15 | h_16 => exact .sign (fun _ same => by cases same; rfl) rfl
  case h_17 => exact .sign nofun rfl
  case h_18 => exact .quote (.inl rfl)
  case h_19 => exact .quote (.inr rfl)
  all_goals exact .mark rfl

namespace Lexeme

/-- The ways a word can go on with the character `c` at `place`. -/
inductive Grows (place : Position) (c : Char) (l : Lexeme) : Lexeme → Prop
  | word (shape : l.shape = .word) (part : isWordPart c = true) : Grows place c l (l.push c .word)
  | number {fraction : Bool} (shape : l.shape = .number fraction) (part : isNumberPart c = true) :
      Grows place c l (l.push c (.number fraction))
  | dot (shape : l.shape = .number false) (dot : c = '.') :
      Grows place c l { l with shape := .numberDot place }
  | fraction {dot : Position} (shape : l.shape = .numberDot dot) (digit : c.isDigit = true) :
      Grows place c l ((l.push '.' l.shape).push c (.number true))
  | withEqual {alone : Option TokenKind} {withEqual : TokenKind}
      (shape : l.shape = .sign alone withEqual) (equal : c = '=') :
      Grows place c l (l.push c (.whole withEqual))
  | quoted {quote : Char} {escaped : Bool} (escapes : Bool)
    (shape : l.shape = .quoted quote escaped)
      (sameLine : c ≠ '\n') : Grows place c l (l.push c (.quoted quote escapes))
  | closed {quote : Char} (shape : l.shape = .quoted quote false) (quote : c = quote) :
      Grows place c l (l.push c (.whole .string))

theorem grows_of_extend? {l longer : Lexeme} {place : Position} {c : Char}
    (extended : l.extend? place c = some longer) : Grows place c l longer := by
  unfold extend? at extended
  split at extended
  case h_1 | h_7 => cases extended
  case h_2 shape =>
    by_cases part : isWordPart c
    · rw [if_pos part] at extended
      cases extended
      exact .word shape part
    · rw [if_neg part] at extended
      cases extended
  case h_3 fraction shape =>
    by_cases part : isNumberPart c
    · rw [if_pos part] at extended
      cases extended
      exact .number shape part
    · rw [if_neg part] at extended
      by_cases dot : c = '.' ∧ fraction = false
      · rw [if_pos dot] at extended
        cases extended
        exact .dot (dot.2 ▸ shape) dot.1
      · rw [if_neg dot] at extended
        cases extended
  case h_4 shape =>
    by_cases digit : c.isDigit
    · rw [if_pos digit] at extended
      cases extended
      exact .fraction shape digit
    · rw [if_neg digit] at extended
      cases extended
  case h_5 shape =>
    by_cases equal : c = '='
    · rw [if_pos equal] at extended
      cases extended
      exact .withEqual shape equal
    · rw [if_neg equal] at extended
      cases extended
  case h_6 quote escaped shape =>
    by_cases feed : c = '\n'
    · rw [if_pos feed] at extended
      cases extended
    · rw [if_neg feed] at extended
      cases escaped with
      | true =>
        rw [if_pos rfl] at extended
        cases extended
        exact .quoted false shape feed
      | false =>
        rw [if_neg Bool.false_ne_true] at extended
        by_cases escapes : c = '\\'
        · rw [if_pos escapes] at extended
          cases extended
          exact .quoted true shape feed
        · rw [if_neg escapes] at extended
          by_cases closed : c = quote
          · rw [if_pos closed] at extended
            cases extended
            exact .closed shape closed
          · rw [if_neg closed] at extended
            cases extended
            exact .quoted false shape feed

/-- No token of the layout can come of the lexeme. -/
def IsSpelt (l : Lexeme) : Prop :=
  match l.shape with
  | .whole kind => kind.isLayout = false
  | .sign alone withEqual =>
    (∀ kind, alone = some kind → kind.isLayout = false) ∧ withEqual.isLayout = false
  | _ => True

theorem isSpelt_ofChar (start : Position) (c : Char) : (ofChar start c).IsSpelt := by
  have begins := Shape.begins_ofChar c
  unfold IsSpelt ofChar
  generalize Shape.ofChar c = shape at begins
  cases begins with
  | mark mark => exact TokenKind.isLayout_of_isMark mark
  | sign mark markWithEqual =>
    refine ⟨?_, TokenKind.isLayout_of_isMark markWithEqual⟩
    intro kind same
    exact TokenKind.isLayout_of_isMark (mark kind same)
  | quote | number | word | foreign => trivial

theorem IsSpelt.extend {l longer : Lexeme} {place : Position} {c : Char} (spelt : l.IsSpelt)
    (extended : l.extend? place c = some longer) : longer.IsSpelt := by
  unfold IsSpelt at spelt
  cases grows_of_extend? extended with
  | withEqual shape =>
    rw [shape] at spelt
    exact spelt.2
  | closed => rfl
  | word | number | dot | fraction | quoted => trivial

end Lexeme

end TekLang
