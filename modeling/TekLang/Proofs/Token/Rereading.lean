import TekLang.Proofs.Token.Shapes
import TekLang.Proofs.Token.Steps

/-!
# Words that are read again

The spelling of a word, read by itself, is that word again, wherever it stands. The one word whose
characters are more than its spelling is a number with a dot behind it: the dot becomes a token of
its own, and the number alone is read as a number.
-/

namespace TekLang

namespace Position

/-- The place behind characters. -/
def behind (place : Position) (cs : List Char) : Position := cs.foldl after place

end Position

/-- The lexeme is a string that is not closed. -/
def Shape.isQuoted : Shape → Bool
  | .quoted .. => true
  | _ => false

/-- What is read of a number when the dot behind it is left out. -/
def Shape.plain : Shape → Shape
  | .numberDot _ => .number false
  | shape => shape

namespace Lexeme

/-- The lexeme goes on with all of the characters. -/
def absorb (l : Lexeme) (place : Position) : List Char → Option Lexeme
  | [] => some l
  | c :: cs => (l.extend? place c).bind (·.absorb (place.after c) cs)

theorem absorb_append (l : Lexeme) (place : Position) (cs ds : List Char) :
    l.absorb place (cs ++ ds) = (l.absorb place cs).bind (·.absorb (place.behind cs) ds) := by
  induction cs generalizing l place with
  | nil => rfl
  | cons c cs ih =>
    rw [List.cons_append, absorb, absorb, Option.bind_assoc]
    congr 1
    funext longer
    exact ih longer (place.after c)

/-- The lexeme goes on neither with a blank nor with a line feed. -/
def Ends (l : Lexeme) : Prop :=
  ∀ place, l.extend? place ' ' = none ∧ l.extend? place '\n' = none

theorem ends_of_unquoted {l : Lexeme} (unquoted : l.shape.isQuoted = false) : l.Ends := by
  obtain ⟨start, spelling, shape⟩ := l
  intro place
  cases shape with
  | quoted => cases unquoted
  | whole | word | number | numberDot | sign | foreign => exact ⟨rfl, rfl⟩

/-- The spelling of the lexeme, read from its first character on, is the lexeme again. -/
def Rereads (l : Lexeme) : Prop :=
  ∃ c cs, l.spelling.toList = c :: cs ∧ OpensWord c ∧ ∀ place,
    (ofChar place c).absorb (place.after c) cs = some ⟨place, l.spelling, l.shape.plain⟩

theorem rereads_ofChar (start : Position) {c : Char} (opens : OpensWord c) :
    (ofChar start c).Rereads := by
  have plain : (Shape.ofChar c).plain = Shape.ofChar c := by
    have begins := Shape.begins_ofChar c
    generalize Shape.ofChar c = shape at begins
    cases begins <;> rfl
  refine ⟨c, [], by simp [ofChar], opens, ?_⟩
  intro place
  rw [absorb, ofChar, ofChar, plain]

/-- How a lexeme goes on does not depend on where it stands, but for the place of a number's dot. -/
theorem extend?_moved (start start' place place' : Position) (spelling : String) {shape : Shape}
    {c : Char} (other : ¬(shape = .number false ∧ c = '.')) :
    (⟨start, spelling, shape⟩ : Lexeme).extend? place c =
      ((⟨start', spelling, shape⟩ : Lexeme).extend? place' c).map fun l => { l with start } := by
  cases shape with
  | whole | foreign => rfl
  | word | numberDot | sign =>
    simp only [extend?]
    split <;> rfl
  | number fraction =>
    simp only [extend?]
    split
    · rfl
    · have noDot : ¬(c = '.' ∧ fraction = false) := by
        rintro ⟨dot, rfl⟩
        exact other ⟨rfl, dot⟩
      rw [if_neg noDot, if_neg noDot]
      rfl
  | quoted quote escaped =>
    simp only [extend?]
    split
    · rfl
    · split
      · rfl
      · split
        · rfl
        · split <;> rfl

theorem Rereads.push {l longer : Lexeme} {c : Char} (rereads : l.Rereads)
    (spelling : longer.spelling = l.spelling.push c)
    (goes : ∀ start place, (⟨start, l.spelling, l.shape.plain⟩ : Lexeme).extend? place c =
      some ⟨start, longer.spelling, longer.shape.plain⟩) : longer.Rereads := by
  obtain ⟨first, cs, spelt, opens, absorbed⟩ := rereads
  refine ⟨first, cs ++ [c], by simp [spelling, spelt], opens, ?_⟩
  intro place
  rw [absorb_append, absorbed, Option.bind_some, absorb, goes, Option.bind_some, absorb]

theorem Rereads.extend {l longer : Lexeme} {place : Position} {c : Char} (rereads : l.Rereads)
    (extended : l.extend? place c = some longer) : longer.Rereads := by
  -- Where neither lexeme is a number in front of its dot, the character does again what it did.
  have again (plain : l.shape.plain = l.shape) (other : longer.shape.plain = longer.shape)
      (spelling : longer.spelling = l.spelling.push c) : longer.Rereads := by
    refine rereads.push spelling ?_
    intro start place'
    have noDot : ¬(l.shape = .number false ∧ c = '.') := by
      rintro ⟨shape, rfl⟩
      have dot : l.extend? place '.' = some { l with shape := .numberDot place } := by
        simp [extend?, shape, isNumberPart]
      obtain rfl := Option.some.inj (extended.symm.trans dot)
      cases other
    rw [plain, other, extend?_moved start l.start place' place l.spelling noDot, extended]
    rfl
  cases grows_of_extend? extended with
  | word shape | number shape | withEqual shape | quoted _ shape | closed shape =>
    exact again (by rw [shape]; rfl) rfl rfl
  | dot shape =>
    obtain ⟨first, cs, spelt, opens, absorbed⟩ := rereads
    rw [shape] at absorbed
    exact ⟨first, cs, spelt, opens, absorbed⟩
  | fraction shape digit =>
    obtain ⟨first, cs, spelt, opens, absorbed⟩ := rereads
    refine ⟨first, cs ++ ['.', c], by simp [Lexeme.push, spelt], opens, ?_⟩
    intro place'
    rw [absorb_append, absorbed, shape]
    simp [absorb, extend?, Shape.plain, isNumberPart, digit, Lexeme.push]

end Lexeme

/-- The spelling of a word, read by itself, is the word again. -/
def Token.IsReadable (t : Token) : Prop :=
  ∃ c cs, t.lexeme.toList = c :: cs ∧ OpensWord c ∧ ∀ place, ∃ l : Lexeme,
    (Lexeme.ofChar place c).absorb (place.after c) cs = some l ∧ l.Ends ∧
      ∀ stop, l.settle stop = [.token ⟨t.kind, t.lexeme, ⟨place, stop⟩⟩]

namespace Lexeme

theorem isReadable_of_mem_settle {l : Lexeme} (rereads : l.Rereads) (stop : Position) :
    ∀ t ∈ tokensOf (l.settle stop), t.IsReadable := by
  obtain ⟨c, cs, spelt, opens, absorbed⟩ := rereads
  have one {kind : TokenKind} {shape : Shape} {stop : Position} (plain : l.shape.plain = shape)
      (unquoted : shape.isQuoted = false)
      (settles : ∀ start stop, (⟨start, l.spelling, shape⟩ : Lexeme).settle stop =
        [.token ⟨kind, l.spelling, ⟨start, stop⟩⟩]) :
      Token.IsReadable ⟨kind, l.spelling, ⟨l.start, stop⟩⟩ := by
    refine ⟨c, cs, spelt, opens, ?_⟩
    intro place
    have again := absorbed place
    rw [plain] at again
    exact ⟨_, again, ends_of_unquoted unquoted, settles place⟩
  intro t member
  cases shape : l.shape with
  | whole kind =>
    simp only [settle, shape] at member
    obtain rfl := List.mem_singleton.1 member
    exact one (congrArg Shape.plain shape) rfl fun _ _ => rfl
  | word =>
    simp only [settle, shape] at member
    obtain rfl := List.mem_singleton.1 member
    exact one (congrArg Shape.plain shape) rfl fun _ _ => rfl
  | number fraction =>
    simp only [settle, shape] at member
    obtain rfl := List.mem_singleton.1 member
    exact one (congrArg Shape.plain shape) rfl fun _ _ => rfl
  | numberDot dot =>
    simp only [settle, shape] at member
    rcases List.mem_cons.1 member with rfl | member
    · exact one (congrArg Shape.plain shape) rfl fun _ _ => rfl
    · obtain rfl := List.mem_singleton.1 member
      have spelt : ".".toList = ['.'] := by decide
      refine ⟨'.', [], spelt, by decide, ?_⟩
      intro place
      exact ⟨ofChar place '.', rfl, ends_of_unquoted rfl, fun stop => rfl⟩
  | sign alone withEqual =>
    cases alone with
    | none =>
      simp only [settle, shape] at member
      cases member
    | some kind =>
      simp only [settle, shape] at member
      obtain rfl := List.mem_singleton.1 member
      exact one (congrArg Shape.plain shape) rfl fun _ _ => rfl
  | quoted quote escaped =>
    simp only [settle, shape] at member
    cases member
  | foreign =>
    simp only [settle, shape] at member
    cases member

end Lexeme

/-- The words of every text are readable. -/
theorem isReadable_of_mem_lex (source : String) :
    ∀ t ∈ wordsOf (lex source).tokens, t.IsReadable := by
  refine @words_rule Lexeme.Rereads Token.IsReadable ?_ ?_ ?_ source
  · intro start c opens
    exact Lexeme.rereads_ofChar start opens
  · intro l longer place c rereads extended
    exact rereads.extend extended
  · intro l stop rereads
    exact Lexeme.isReadable_of_mem_settle rereads stop

end TekLang
