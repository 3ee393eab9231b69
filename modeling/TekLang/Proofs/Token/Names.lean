import TekLang.Proofs.Token.Shapes
import TekLang.Proofs.Token.Steps

/-!
# The names in a text

A name in a text consists of letters, digits and underscores. So no name can be mistaken for the
signature of a function, which has parentheses.
-/

namespace TekLang

/-- A token that is a name consists of the characters of words. -/
def Token.IsWordLike (t : Token) : Prop :=
  t.kind = .identifier → ∀ c ∈ t.lexeme.toList, isWordPart c = true

namespace Lexeme

/-- A lexeme that can become a name has taken only characters of words. -/
def IsSound (l : Lexeme) : Prop :=
  match l.shape with
  | .word => ∀ c ∈ l.spelling.toList, isWordPart c = true
  | .whole kind => kind ≠ .identifier
  | .sign alone withEqual => alone ≠ some .identifier ∧ withEqual ≠ .identifier
  | _ => True

theorem isSound_ofChar (start : Position) (c : Char) : (ofChar start c).IsSound := by
  have named {kind : TokenKind} (mark : kind.isMark = true) : kind ≠ .identifier := by
    rintro rfl
    cases mark
  have begins := Shape.begins_ofChar c
  unfold IsSound ofChar
  generalize Shape.ofChar c = shape at begins
  cases begins with
  | mark mark => exact named mark
  | sign mark markWithEqual =>
    refine ⟨?_, named markWithEqual⟩
    intro same
    exact named (mark .identifier same) rfl
  | word start =>
    intro d member
    obtain rfl : d = c := by simpa using member
    exact Bool.or_eq_true_iff.2 (.inl start)
  | quote | number | foreign => trivial

theorem isSound_of_extend? {l l' : Lexeme} {place : Position} {c : Char} (sound : l.IsSound)
    (extended : l.extend? place c = some l') : l'.IsSound := by
  unfold IsSound at sound
  cases grows_of_extend? extended with
  | word shape part =>
    rw [shape] at sound
    intro d member
    have member : d ∈ l.spelling.toList ∨ d = c := by simpa [push] using member
    rcases member with member | rfl
    · exact sound d member
    · exact part
  | withEqual shape =>
    rw [shape] at sound
    exact sound.2
  | closed => exact TokenKind.noConfusion
  | number | dot | fraction | quoted => trivial

theorem isWordLike_of_settle {l : Lexeme} (sound : l.IsSound) (stop : Position) :
    ∀ t ∈ tokensOf (l.settle stop), t.IsWordLike := by
  have one (kind : TokenKind) (plain : kind = .identifier → ∀ c ∈ l.spelling.toList, isWordPart c) :
      ∀ t ∈ tokensOf [l.token kind stop], t.IsWordLike := by
    intro t member
    obtain rfl := List.mem_singleton.1 member
    exact plain
  unfold IsSound at sound
  unfold settle
  split
  case h_1 kind shape =>
    rw [shape] at sound
    exact one _ fun same => absurd same sound
  case h_2 shape =>
    rw [shape] at sound
    exact one _ fun _ => sound
  case h_3 => exact one _ nofun
  case h_4 =>
    intro t member
    rcases List.mem_cons.1 member with rfl | member
    · exact nofun
    · obtain rfl := List.mem_singleton.1 member
      exact nofun
  case h_5 kind _ shape =>
    rw [shape] at sound
    exact one _ fun same => absurd (congrArg some same) sound.1
  case h_6 | h_7 | h_8 => exact nofun

end Lexeme

/-- The names in a text consist of letters, digits and underscores. -/
theorem isWordLike_of_mem_lex (source : String) : ∀ t ∈ (lex source).tokens, t.IsWordLike := by
  have words : ∀ t ∈ wordsOf (lex source).tokens, t.IsWordLike :=
    words_rule (fun start c _ => Lexeme.isSound_ofChar start c)
      (fun _ _ _ _ sound extended => Lexeme.isSound_of_extend? sound extended)
      (fun _ stop sound => Lexeme.isWordLike_of_settle sound stop) source
  intro t there kind
  refine words t (List.mem_filter.2 ⟨there, ?_⟩) kind
  rw [kind]
  rfl

end TekLang
