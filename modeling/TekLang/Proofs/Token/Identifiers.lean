import TekLang.Proofs.Token.Names
import TekLang.Proofs.Token.Rendering

/-!
# What can be a name

The spellings of names, said of the characters alone: a word that is neither reserved nor a truth
value. They are exactly those that a name can have in a text.
-/

namespace TekLang

/-- Whether characters spell a name. -/
def isName : List Char → Bool
  | [] => false
  | c :: cs => isWordStart c && cs.all isWordPart &&
      decide (TokenKind.ofWord (String.ofList (c :: cs)) = .identifier)

/-- What a name can be. -/
def IsName (s : String) : Prop := isName s.toList = true

instance (s : String) : Decidable (IsName s) := inferInstanceAs (Decidable (_ = true))

/-- The characters of a word: one that words begin with and then any that words go on with. -/
def IsWordSpelling (cs : List Char) : Prop :=
  ∃ first rest, cs = first :: rest ∧ isWordStart first = true ∧ ∀ c ∈ rest, isWordPart c = true

theorem isName_iff {s : String} :
    IsName s ↔ IsWordSpelling s.toList ∧ TokenKind.ofWord s = .identifier := by
  unfold IsName IsWordSpelling
  cases spelt : s.toList with
  | nil => simp [isName]
  | cons c cs =>
    have whole : String.ofList (c :: cs) = s := by rw [← spelt, String.ofList_toList]
    rw [isName, whole, Bool.and_eq_true, Bool.and_eq_true, List.all_eq_true, decide_eq_true_eq]
    simp

theorem IsWordSpelling.isWordPart {cs : List Char} (word : IsWordSpelling cs) :
    ∀ c ∈ cs, isWordPart c = true := by
  obtain ⟨first, rest, rfl, start, parts⟩ := word
  refine List.forall_mem_cons.2 ⟨?_, parts⟩
  rw [TekLang.isWordPart, start, Bool.true_or]

/-! A name that is read is spelt like one. -/

namespace Lexeme

/-- A lexeme that is a word is spelt like one. -/
def IsWordOnce (l : Lexeme) : Prop := l.shape = .word → IsWordSpelling l.spelling.toList

theorem isWordOnce_ofChar (start : Position) (c : Char) : (ofChar start c).IsWordOnce := by
  intro word
  have begins := Shape.begins_ofChar c
  rw [show Shape.ofChar c = .word from word] at begins
  cases begins with
  | word first => exact ⟨c, [], by simp [ofChar], first, List.forall_mem_nil _⟩

theorem isWordOnce_of_extend? {l longer : Lexeme} {place : Position} {c : Char}
    (once : l.IsWordOnce) (extended : l.extend? place c = some longer) : longer.IsWordOnce := by
  intro word
  cases grows_of_extend? extended with
  | word shape part =>
    obtain ⟨first, rest, spelt, start, parts⟩ := once shape
    refine ⟨first, rest ++ [c], by simp [push, spelt], start, ?_⟩
    intro d member
    rcases List.mem_append.1 member with member | member
    · exact parts d member
    · rw [List.mem_singleton.1 member]
      exact part
  | number | dot | fraction | withEqual | quoted | closed => cases word

theorem isName_of_settle {l : Lexeme} (sound : l.IsSound) (once : l.IsWordOnce) (stop : Position) :
    ∀ t ∈ tokensOf (l.settle stop), t.kind = .identifier → IsName t.lexeme := by
  intro t member kind
  unfold IsSound at sound
  unfold settle at member
  split at member
  case h_1 shape =>
    rw [shape] at sound
    obtain rfl := List.mem_singleton.1 member
    exact absurd kind sound
  case h_2 shape =>
    obtain rfl := List.mem_singleton.1 member
    exact isName_iff.2 ⟨once shape, kind⟩
  case h_3 =>
    obtain rfl := List.mem_singleton.1 member
    cases kind
  case h_4 =>
    rcases List.mem_cons.1 member with rfl | member
    · cases kind
    · obtain rfl := List.mem_singleton.1 member
      cases kind
  case h_5 shape =>
    rw [shape] at sound
    obtain rfl := List.mem_singleton.1 member
    exact absurd (congrArg some kind) sound.1
  case h_6 | h_7 | h_8 => cases member

end Lexeme

theorem isName_of_mem_lex (source : String) {t : Token} (there : t ∈ (lex source).tokens)
    (kind : t.kind = .identifier) : IsName t.lexeme := by
  have words : ∀ t ∈ wordsOf (lex source).tokens, t.kind = .identifier → IsName t.lexeme :=
    @words_rule (fun l => l.IsSound ∧ l.IsWordOnce) _
      (fun start c _ => ⟨Lexeme.isSound_ofChar start c, Lexeme.isWordOnce_ofChar start c⟩)
      (fun _ _ _ _ part extended => ⟨Lexeme.isSound_of_extend? part.1 extended,
        Lexeme.isWordOnce_of_extend? part.2 extended⟩)
      (fun _ stop part => Lexeme.isName_of_settle part.1 part.2 stop) source
  refine words t (List.mem_filter.2 ⟨there, ?_⟩) kind
  rw [kind]
  rfl

/-! And what is spelt like a name is read as one. -/

theorem isDigit_of_isWordStart {c : Char} (start : isWordStart c = true) : c.isDigit = false := by
  have value : c.toNat = c.val.toNat := rfl
  rcases Bool.or_eq_true_iff.1 start with letter | underscore
  · have letter : (decide (65 ≤ c.val ∧ c.val ≤ 90) ||
        (decide (97 ≤ c.val) && c.val ≤ 122)) = true := letter
    simp only [Bool.or_eq_true, Bool.and_eq_true, decide_eq_true_eq, UInt32.le_iff_toNat_le]
      at letter
    simp only [Char.isDigit, Bool.and_eq_false_iff, decide_eq_false_iff_not, UInt32.le_iff_toNat_le,
      ge_iff_le]
    change (65 ≤ c.val.toNat ∧ c.val.toNat ≤ 90) ∨ (97 ≤ c.val.toNat ∧ c.val.toNat ≤ 122) at letter
    change ¬48 ≤ c.val.toNat ∨ ¬c.val.toNat ≤ 57
    omega
  · rw [of_decide_eq_true underscore]
    decide

theorem Shape.ofChar_of_isWordStart {c : Char} (start : isWordStart c = true) :
    Shape.ofChar c = .word := by
  unfold ofChar
  split
  case h_20 => rw [isDigit_of_isWordStart start, if_neg Bool.false_ne_true, if_pos start]
  all_goals cases start

theorem opensWord_of_isWordStart {c : Char} (start : isWordStart c = true) : OpensWord c := by
  refine ⟨?_, ?_, ?_, ?_, ?_⟩
  all_goals
    rintro rfl
    cases start

theorem Lexeme.absorb_word (place start : Position) (spelling : String) {cs : List Char}
    (parts : ∀ c ∈ cs, isWordPart c = true) :
    (⟨start, spelling, .word⟩ : Lexeme).absorb place cs =
      some ⟨start, spelling ++ String.ofList cs, .word⟩ := by
  induction cs generalizing place spelling with
  | nil => simp [absorb]
  | cons c cs ih =>
    obtain ⟨part, parts⟩ := List.forall_mem_cons.1 parts
    have more : spelling.push c ++ String.ofList cs = spelling ++ String.ofList (c :: cs) :=
      String.ext (by simp)
    rw [absorb, extend?, if_pos part, Option.bind_some, push, ih _ _ parts, more]

theorem isReadable_of_isWordSpelling {t : Token} (word : IsWordSpelling t.lexeme.toList)
    (kind : TokenKind.ofWord t.lexeme = t.kind) : t.IsReadable := by
  obtain ⟨first, rest, spelt, start, parts⟩ := word
  refine ⟨first, rest, spelt, opensWord_of_isWordStart start, ?_⟩
  intro place
  have whole : first.toString ++ String.ofList rest = t.lexeme := String.ext (by simp [spelt])
  have absorbed := Lexeme.absorb_word (place.after first) place first.toString parts
  rw [whole] at absorbed
  refine ⟨⟨place, t.lexeme, .word⟩, ?_, Lexeme.ends_of_unquoted rfl, ?_⟩
  · rw [Lexeme.ofChar, Shape.ofChar_of_isWordStart start, absorbed]
  · intro stop
    rw [← kind]
    rfl

theorem isReadable_of_isName {t : Token} (name : IsName t.lexeme) (kind : t.kind = .identifier) :
    t.IsReadable :=
  isReadable_of_isWordSpelling (isName_iff.1 name).1 ((isName_iff.1 name).2.trans kind.symm)

/-- Nothing but names is read as a name, and every name is. -/
theorem isName_iff_lexed {s : String} :
    IsName s ↔ ∃ source, ∃ t ∈ (lex source).tokens, t.kind = .identifier ∧ t.lexeme = s := by
  constructor
  · intro name
    have readable : Token.IsReadable ⟨.identifier, s, default⟩ := isReadable_of_isName name rfl
    obtain ⟨after, span, reads, pends, -, -⟩ := Scan.reads_first (s := .initial) rfl readable
    obtain ⟨span', settled⟩ := Scan.settleWord_of_pends pends
    refine ⟨s, ⟨.identifier, s, span'⟩, ?_, rfl, rfl⟩
    rw [tokens_lex, mem_tokensOf, Scan.pieces_eq_read,
      show Scan.initial.read s.toList = _ from reads,
      Scan.finish, settled]
    simp [Scan.afterWord]
  · rintro ⟨source, t, there, kind, rfl⟩
    exact isName_of_mem_lex source there kind

end TekLang
