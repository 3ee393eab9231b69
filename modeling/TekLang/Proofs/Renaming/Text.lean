import Mathlib.Logic.Equiv.Basic
import TekLang.Proofs.Token.Identifiers

/-!
# Renaming in texts

A `Renaming` gives every name another one. In a text it replaces the words that are names, each as a
whole, and leaves alone what stands between them; no two texts become the same.
-/

namespace TekLang

/-- Characters in which every word is replaced; `w` is what has been read of a word. -/
def replaceWords (f : List Char → List Char) (w : List Char) : List Char → List Char
  | [] => f w
  | c :: cs =>
    if isWordPart c then replaceWords f (w ++ [c]) cs else f w ++ c :: replaceWords f [] cs

section Words

variable (f g : List Char → List Char)

theorem replaceWords_word (w : List Char) {cs : List Char}
    (parts : ∀ c ∈ cs, isWordPart c = true) : replaceWords f w cs = f (w ++ cs) := by
  induction cs generalizing w with
  | nil => rw [replaceWords, List.append_nil]
  | cons c cs ih =>
    obtain ⟨part, parts⟩ := List.forall_mem_cons.1 parts
    rw [replaceWords, if_pos part, ih _ parts, List.append_assoc, List.singleton_append]

/-- What stands in front of a character that is in no word is replaced apart from what follows. -/
theorem replaceWords_append_cons (w cs ds : List Char) {c : Char} (other : isWordPart c = false) :
    replaceWords f w (cs ++ c :: ds) = replaceWords f w cs ++ c :: replaceWords f [] ds := by
  have between : ¬isWordPart c = true := by simp [other]
  induction cs generalizing w with
  | nil => rw [List.nil_append, replaceWords, replaceWords, if_neg between]
  | cons d cs ih =>
    rw [List.cons_append, replaceWords, replaceWords]
    split
    · exact ih _
    · rw [ih, List.append_assoc, List.cons_append]

/-- Words that are replaced by words can be replaced again. -/
theorem replaceWords_replaceWords
    (words : ∀ w, (∀ c ∈ w, isWordPart c = true) → ∀ c ∈ f w, isWordPart c = true) {w : List Char}
    (parts : ∀ c ∈ w, isWordPart c = true) (cs : List Char) :
    replaceWords g [] (replaceWords f w cs) = replaceWords (g ∘ f) w cs := by
  induction cs generalizing w with
  | nil => rw [replaceWords, replaceWords_word _ _ (words w parts), List.nil_append, replaceWords,
      Function.comp_apply]
  | cons c cs ih =>
    rw [replaceWords, replaceWords]
    by_cases part : isWordPart c = true
    · rw [if_pos part, if_pos part]
      refine ih ?_
      intro d member
      rcases List.mem_append.1 member with member | member
      · exact parts d member
      · rw [List.mem_singleton.1 member]
        exact part
    · have other : isWordPart c = false := Bool.eq_false_iff.2 part
      rw [if_neg part, if_neg part, replaceWords_append_cons _ _ _ _ other,
        replaceWords_word _ _ (words w parts), List.nil_append, ih (List.forall_mem_nil _),
        Function.comp_apply]

theorem replaceWords_id {h : List Char → List Char}
    (same : ∀ w, (∀ c ∈ w, isWordPart c = true) → h w = w) {w : List Char}
    (parts : ∀ c ∈ w, isWordPart c = true) (cs : List Char) : replaceWords h w cs = w ++ cs := by
  induction cs generalizing w with
  | nil => rw [replaceWords, same w parts, List.append_nil]
  | cons c cs ih =>
    rw [replaceWords]
    split
    · next part =>
      rw [ih, List.append_assoc, List.singleton_append]
      intro d member
      rcases List.mem_append.1 member with member | member
      · exact parts d member
      · rw [List.mem_singleton.1 member]
        exact part
    · rw [same w parts, ih (List.forall_mem_nil _), List.nil_append]

end Words

/-- What is found under a key is found under what has become of it, if no two keys become the
    same. -/
theorem lookup_map_of_injective {κ α β : Type} [BEq κ] [LawfulBEq κ] {f : κ → κ}
    (injective : Function.Injective f) (g : α → β) (entries : List (κ × α)) (k : κ) :
    (entries.map (Prod.map f g)).lookup (f k) = (entries.lookup k).map g := by
  induction entries with
  | nil => rfl
  | cons b entries ih =>
    have same : (f k == f b.1) = (k == b.1) := by
      by_cases equal : k = b.1
      · rw [equal, beq_self_eq_true, beq_self_eq_true]
      · rw [beq_false_of_ne equal, beq_false_of_ne fun image => equal (injective image)]
    obtain ⟨key, value⟩ := b
    rw [List.map_cons, Prod.map_apply, List.lookup_cons, List.lookup_cons, same, ih]
    cases k == key <;> rfl

/-- Another name for every name, and no name for two. -/
structure Renaming where
  image : String → String
  isName : ∀ {x}, IsName x → IsName (image x)
  injective : ∀ {x y}, IsName x → IsName y → image x = image y → x = y

namespace Renaming

/-- Each of two names in the place of the other. -/
def swap {a b : String} (first : IsName a) (second : IsName b) : Renaming where
  image := Equiv.swap a b
  isName {x} name := by
    rw [Equiv.swap_apply_def]
    split
    · exact second
    · split
      · exact first
      · exact name
  injective _ _ same := (Equiv.swap a b).injective same

variable (ρ : Renaming)

/-- What becomes of a word. One that is no name stays as it is. -/
def word (w : List Char) : List Char :=
  if TekLang.isName w then (ρ.image (String.ofList w)).toList else w

/-- A text in which every name is replaced. -/
def text (s : String) : String := String.ofList (replaceWords ρ.word [] s.toList)

theorem toList_text (s : String) : (ρ.text s).toList = replaceWords ρ.word [] s.toList :=
  String.toList_ofList

theorem word_of_isName {w : List Char} (name : TekLang.isName w = true) :
    ρ.word w = (ρ.image (String.ofList w)).toList := if_pos name

theorem word_of_not_isName {w : List Char} (other : ¬TekLang.isName w = true) : ρ.word w = w :=
  if_neg other

theorem isName_ofList {w : List Char} (name : TekLang.isName w = true) :
    IsName (String.ofList w) := by
  rw [IsName, String.toList_ofList]
  exact name

theorem isWordPart_word {w : List Char} (parts : ∀ c ∈ w, isWordPart c = true) :
    ∀ c ∈ ρ.word w, isWordPart c = true := by
  by_cases name : TekLang.isName w = true
  · rw [ρ.word_of_isName name]
    exact (isName_iff.1 (ρ.isName (isName_ofList name))).1.isWordPart
  · rw [ρ.word_of_not_isName name]
    exact parts

theorem word_injective : Function.Injective ρ.word := by
  have image {w : List Char} (name : TekLang.isName w = true) :
      TekLang.isName (ρ.word w) = true := by
    rw [ρ.word_of_isName name]
    exact ρ.isName (isName_ofList name)
  intro v w same
  by_cases name : TekLang.isName v = true
  · by_cases name' : TekLang.isName w = true
    · rw [ρ.word_of_isName name, ρ.word_of_isName name', String.toList_inj] at same
      have equal := ρ.injective (isName_ofList name) (isName_ofList name') same
      exact String.ofList_injective equal
    · have there := image name
      rw [same, ρ.word_of_not_isName name'] at there
      exact absurd there name'
  · by_cases name' : TekLang.isName w = true
    · have there := image name'
      rw [← same, ρ.word_of_not_isName name] at there
      exact absurd there name
    · rwa [ρ.word_of_not_isName name, ρ.word_of_not_isName name'] at same

/-- No two texts become the same. -/
theorem text_injective : Function.Injective ρ.text := by
  have back (s : String) :
      replaceWords (Function.invFun ρ.word) [] (ρ.text s).toList = s.toList := by
    rw [toList_text, replaceWords_replaceWords _ _ (fun _ => ρ.isWordPart_word)
      (List.forall_mem_nil _), replaceWords_id _ (List.forall_mem_nil _), List.nil_append]
    intro w _
    exact congrFun (Function.invFun_comp ρ.word_injective) w
  intro s t same
  rw [← String.toList_inj, ← back s, ← back t, same]

@[simp] theorem text_inj {s t : String} : ρ.text s = ρ.text t ↔ s = t := ρ.text_injective.eq_iff

theorem word_nil : ρ.word [] = [] := ρ.word_of_not_isName Bool.false_ne_true

/-- A name is replaced. -/
theorem text_of_isName {s : String} (name : IsName s) : ρ.text s = ρ.image s := by
  have parts := (isName_iff.1 name).1.isWordPart
  rw [text, replaceWords_word _ _ parts, List.nil_append, ρ.word_of_isName name,
    String.ofList_toList, String.ofList_toList]

/-- Any other word is not. -/
theorem text_of_not_isName {s : String} (parts : ∀ c ∈ s.toList, isWordPart c = true)
    (other : ¬IsName s) : ρ.text s = s := by
  rw [text, replaceWords_word _ _ parts, List.nil_append, ρ.word_of_not_isName other,
    String.ofList_toList]

/-- The text does not go on with a word. -/
def BeginsOutside (s : String) : Prop := ∀ c ∈ s.toList.head?, isWordPart c = false

theorem text_append (s : String) {t : String} (outside : BeginsOutside t) :
    ρ.text (s ++ t) = ρ.text s ++ ρ.text t := by
  apply String.toList_injective
  rw [toList_text, String.toList_append, String.toList_append, toList_text, toList_text]
  unfold BeginsOutside at outside
  cases spelt : t.toList with
  | nil => rw [List.append_nil, replaceWords, word_nil, List.append_nil]
  | cons c cs =>
    rw [spelt] at outside
    have other := outside c rfl
    have alone := replaceWords_append_cons ρ.word [] [] cs other
    rw [List.nil_append, replaceWords, word_nil, List.nil_append] at alone
    rw [replaceWords_append_cons _ _ _ _ other, alone]

/-- A mark, which is in no word, parts a text. -/
theorem text_mark (mark : String) {c : Char} (one : mark.toList = [c])
    (other : isWordPart c = false) (s : String) : ρ.text (mark ++ s) = mark ++ ρ.text s := by
  apply String.toList_injective
  have alone := replaceWords_append_cons ρ.word [] [] s.toList other
  rw [List.nil_append, replaceWords, word_nil, List.nil_append] at alone
  rw [toList_text, String.toList_append, String.toList_append, toList_text, one,
    List.singleton_append, alone, List.singleton_append]

end Renaming

end TekLang
