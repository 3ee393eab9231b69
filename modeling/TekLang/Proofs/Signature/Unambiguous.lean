import TekLang.Proofs.Signature.Shape

/-!
# Types and their texts

The structure of a type can be told from its text, also where other things stand behind it, as they
do in a list of types: `TypeShape.told_text`. The marks between names, around arguments and behind
arrays are in no name, and no place of a generic parameter begins like a name.
-/

namespace TekLang

/-- Whether a text begins with a character of a sort, if it does not end before. -/
def Leads (p : Char → Prop) (text : String) : Prop := ∀ c ∈ text.toList.head?, p c

section Texts

variable {p q : Char → Prop} {r r' : String}

theorem leads_empty : Leads p "" := nofun

theorem Leads.mono (leads : Leads p r) (weaker : ∀ c, p c → q c) : Leads q r :=
  fun c first => weaker c (leads c first)

theorem leads_append (mark : String) {c : Char} {rest : List Char} (first : mark.toList = c :: rest)
    (is : p c) (text : String) : Leads p (mark ++ text) := by
  unfold Leads
  rw [String.toList_append, first]
  rintro d ⟨⟩
  exact is

theorem takeWhile_append_of_leads {p : Char → Bool} {s : String} (own : s.toList.all p = true)
    (behind : Leads (p · = false) r) : (s ++ r).toList.takeWhile p = s.toList := by
  have stops : r.toList.takeWhile p = [] := by
    unfold Leads at behind
    cases chars : r.toList with
    | nil => rfl
    | cons c rest =>
      rw [chars] at behind
      exact List.takeWhile_cons_of_neg (by rw [behind c rfl]; exact Bool.false_ne_true)
  rw [String.toList_append, List.takeWhile_append_of_pos (List.all_eq_true.1 own), stops,
    List.append_nil]

/-- A text of one sort of characters can be told from what begins with others behind it. -/
theorem eq_of_append_of_leads {p : Char → Bool} {s t : String} (own : s.toList.all p = true)
    (own' : t.toList.all p = true) (behind : Leads (p · = false) r)
    (behind' : Leads (p · = false) r') (same : s ++ r = t ++ r') : s = t ∧ r = r' := by
  have texts : s = t := by
    apply String.toList_injective
    rw [← takeWhile_append_of_leads own behind, same, takeWhile_append_of_leads own' behind']
  refine ⟨texts, String.toList_injective ?_⟩
  have chars := congrArg String.toList same
  rw [texts, String.toList_append, String.toList_append] at chars
  exact List.append_cancel_left chars

theorem of_leads_append (mark : String) {c : Char} {rest : List Char}
    (first : mark.toList = c :: rest) {text : String} (leads : Leads p (mark ++ text)) : p c := by
  apply leads
  rw [String.toList_append, first]
  rfl

theorem eq_of_mark_append {mark text text' : String} (same : mark ++ text = mark ++ text') :
    text = text' := by
  have chars := congrArg String.toList same
  rw [String.toList_append, String.toList_append] at chars
  exact String.toList_injective (List.append_cancel_left chars)

/-- Whether things can be told from their texts with something behind that begins with a character
    of the sort `p`. -/
def Told {α : Type} (f : α → String) (p : Char → Prop) (x y : α) : Prop :=
  ∀ r r', Leads p r → Leads p r' → f x ++ r = f y ++ r' → x = y ∧ r = r'

theorem exists_joined_cons (mark t : String) (ts : List String) :
    ∃ more, joined mark (t :: ts) = t ++ more := by
  cases ts with
  | nil => exact ⟨"", String.append_empty.symm⟩
  | cons u ts => exact ⟨mark ++ joined mark (u :: ts), String.append_assoc⟩

theorem joined_map_append {α : Type} (mark : String) (f : α → String) (x y : α) (ys : List α)
    (r : String) : joined mark ((x :: y :: ys).map f) ++ r =
      f x ++ (mark ++ (joined mark ((y :: ys).map f) ++ r)) := by
  rw [List.map_cons, List.map_cons, joined, String.append_assoc, String.append_assoc]

/-- Then so can lists of them with a mark between any two. -/
theorem told_joined {α : Type} {f : α → String} (mark : String) {c : Char} (one : mark.toList = [c])
    (is : p c) : ∀ {xs ys : List α}, xs ≠ [] → ys ≠ [] →
    (∀ x ∈ xs, ∀ y ∈ ys, Told f p x y) →
    Told (fun xs => joined mark (xs.map f)) (fun d => p d ∧ d ≠ c) xs ys := by
  intro xs ys some some' each r r' behind behind' same
  have leads (text : String) : Leads p (mark ++ text) := leads_append mark one is text
  have rest : Leads p r := behind.mono fun _ both => both.1
  have rest' : Leads p r' := behind'.mono fun _ both => both.1
  beta_reduce at same
  induction xs generalizing ys with
  | nil => exact absurd rfl some
  | cons x xs ih =>
    cases ys with
    | nil => exact absurd rfl some'
    | cons y ys =>
      have first := each x List.mem_cons_self y List.mem_cons_self
      -- A list that goes on has the mark where one that is at its end may not have it.
      cases xs with
      | nil =>
        cases ys with
        | nil =>
          obtain ⟨rfl, rest⟩ := first r r' rest rest' same
          exact ⟨rfl, rest⟩
        | cons y' ys =>
          rw [joined_map_append] at same
          obtain ⟨-, goes⟩ := first r _ rest (leads _) same
          exact absurd rfl (of_leads_append mark one (goes ▸ behind)).2
      | cons x' xs =>
        cases ys with
        | nil =>
          rw [joined_map_append] at same
          obtain ⟨-, goes⟩ := first _ r' (leads _) rest' same
          exact absurd rfl (of_leads_append mark one (goes ▸ behind')).2
        | cons y' ys =>
          rw [joined_map_append, joined_map_append] at same
          obtain ⟨rfl, goes⟩ := first _ _ (leads _) (leads _) same
          obtain ⟨others, rest⟩ := ih (List.cons_ne_nil _ _) (List.cons_ne_nil _ _)
            (fun x there y there' => each x (.tail _ there) y (.tail _ there'))
            (eq_of_mark_append goes)
          exact ⟨congrArg _ others, rest⟩

end Texts

namespace TypeHead

/-- The characters of the beginning of a type. -/
def isHeadChar (c : Char) : Bool := isWordPart c || c = '.' || c = '$'

theorem toString_injective {m n : Nat} (same : toString m = toString n) : m = n := by
  have digits := congrArg (fun s : String => Nat.ofDigitChars 10 s.toList 0) same
  simpa [Nat.toString_eq_ofList_toDigits] using digits

theorem isDigit_of_mem_toString {n : Nat} {c : Char} (there : c ∈ (toString n).toList) :
    c.isDigit = true := by
  have digits : (toString n).toList = Nat.toDigits 10 n := String.toList_ofList
  rw [digits] at there
  exact Nat.isDigit_of_mem_toDigits (by decide) (by decide) there

theorem IsName.isWordPart {name : String} (named : IsName name) :
    name.toList.all isWordPart = true :=
  List.all_eq_true.2 (isName_iff.1 named).1.isWordPart

theorem all_joined {mark : String} {p : Char → Bool} (parts : mark.toList.all p = true)
    {texts : List String} (each : ∀ t ∈ texts, t.toList.all p = true) :
    (joined mark texts).toList.all p = true := by
  induction texts with
  | nil => rfl
  | cons t texts ih =>
    obtain ⟨first, others⟩ := List.forall_mem_cons.1 each
    cases texts with
    | nil => exact first
    | cons u texts =>
      rw [joined, String.toList_append, String.toList_append, List.all_append, List.all_append,
        first, parts, ih others]
      rfl

theorem IsNamed.all_text {head : TypeHead} (named : head.IsNamed) :
    head.text.toList.all isHeadChar = true := by
  cases head with
  | path names =>
    refine all_joined rfl fun name there => ?_
    refine List.all_eq_true.2 fun c member => ?_
    have part := List.all_eq_true.1 (IsName.isWordPart (named.2 name there)) c member
    rw [isHeadChar, part]
    rfl
  | place index =>
    refine List.all_eq_true.2 fun c member => ?_
    rw [text, String.toList_append] at member
    rcases List.mem_append.1 member with mark | digit
    · obtain rfl : c = '$' := List.mem_singleton.1 mark
      decide
    · rw [isHeadChar, isWordPart, isDigit_of_mem_toString digit, Bool.or_true]
      rfl

theorem IsNamed.begins {names : List String} (named : IsNamed (path names)) :
    ∃ first, isWordStart first = true ∧ (text (path names)).toList.head? = some first := by
  cases names with
  | nil => exact absurd rfl named.1
  | cons name names =>
    obtain ⟨first, rest, spelt, start, -⟩ := (isName_iff.1 (named.2 name List.mem_cons_self)).1
    obtain ⟨more, begins⟩ := exists_joined_cons "." name names
    refine ⟨first, start, ?_⟩
    rw [text, begins, String.toList_append, spelt]
    rfl

theorem IsNamed.exists_first {head : TypeHead} (named : head.IsNamed) :
    ∃ c rest, head.text.toList = c :: rest := by
  cases head with
  | path names =>
    obtain ⟨first, -, begins⟩ := named.begins
    obtain ⟨rest, chars⟩ := List.head?_eq_some_iff.1 begins
    exact ⟨first, rest, chars⟩
  | place index =>
    refine ⟨'$', (toString index).toList, ?_⟩
    rw [text, String.toList_append]
    rfl

theorem told_name {x y : String} (named : IsName x) (named' : IsName y) :
    Told id (isWordPart · = false) x y :=
  fun _ _ => eq_of_append_of_leads (IsName.isWordPart named) (IsName.isWordPart named')

/-- What a type begins with can be told from its text. -/
theorem eq_of_text {head head' : TypeHead} (named : head.IsNamed) (named' : head'.IsNamed)
    (same : head.text = head'.text) : head = head' := by
  -- No name begins with the mark of a place.
  have apart {names : List String} {index : Nat} (named : IsNamed (path names)) :
      text (path names) ≠ text (place index) := by
    obtain ⟨first, start, begins⟩ := named.begins
    intro same
    rw [same, text, String.toList_append] at begins
    cases begins
    cases start
  cases head with
  | path names =>
    cases head' with
    | path names' =>
      have told := told_joined (f := id) (p := (isWordPart · = false)) "." (c := '.') rfl rfl
        named.1 named'.1 fun x there y there' => told_name (named.2 x there) (named'.2 y there')
      have whole : joined "." (names.map id) ++ "" = joined "." (names'.map id) ++ "" := by
        rw [List.map_id, List.map_id]
        exact congrArg (· ++ "") same
      exact congrArg path (told "" "" leads_empty leads_empty whole).1
    | place => exact absurd same (apart named)
  | place index =>
    cases head' with
    | path => exact absurd same.symm (apart named')
    | place => exact congrArg place (toString_injective (eq_of_mark_append same))

end TypeHead

namespace TypeShape

open Signature

/-- What may stand behind a type in a list of types. -/
def IsBehind (c : Char) : Prop := c = ',' ∨ c = '>' ∨ c = ')'

section

variable {r r' : String}

theorem told_brackets (depth depth' : Nat) : Told brackets (· ≠ '[') depth depth' := by
  intro r r' behind behind' same
  induction depth generalizing depth' with
  | zero =>
    cases depth' with
    | zero => exact ⟨rfl, eq_of_mark_append same⟩
    | succ depth' =>
      rw [brackets, brackets, String.empty_append, String.append_assoc] at same
      exact absurd rfl (of_leads_append "[]" rfl (same ▸ behind))
  | succ depth ih =>
    cases depth' with
    | zero =>
      rw [brackets, brackets, String.empty_append, String.append_assoc] at same
      exact absurd rfl (of_leads_append "[]" rfl (same ▸ behind'))
    | succ depth' =>
      rw [brackets, brackets, String.append_assoc, String.append_assoc] at same
      obtain ⟨rfl, rest⟩ := ih depth' (eq_of_mark_append same)
      exact ⟨rfl, rest⟩

theorem leads_brackets (behind : Leads IsBehind r) (depth : Nat) :
    Leads (fun c => c = '[' ∨ IsBehind c) (brackets depth ++ r) := by
  cases depth with
  | zero =>
    rw [brackets, String.empty_append]
    exact behind.mono fun _ => .inr
  | succ depth =>
    rw [brackets, String.append_assoc]
    exact leads_append _ rfl (.inl rfl) _

theorem leads_argumentsText (behind : Leads (fun c => c = '[' ∨ IsBehind c) r)
    (texts : List String) :
    Leads (fun c => c = '<' ∨ c = '[' ∨ IsBehind c) (argumentsText texts ++ r) := by
  cases texts with
  | nil =>
    rw [argumentsText, String.empty_append]
    exact behind.mono fun _ => .inr
  | cons =>
    rw [argumentsText, String.append_assoc, String.append_assoc]
    · exact leads_append _ rfl (.inl rfl) _
    · exact nofun

theorem argumentsText_append (s : TypeShape) (ss : List TypeShape) (r : String) :
    argumentsText ((s :: ss).map text) ++ r =
      "<" ++ (joined "," ((s :: ss).map text) ++ (">" ++ r)) := by
  change "<" ++ joined "," ((s :: ss).map text) ++ ">" ++ r = _
  rw [String.append_assoc, String.append_assoc]

/-- Type arguments can be told from their text if each of them can. -/
theorem told_argumentsText {arguments arguments' : List TypeShape}
    (each : ∀ s ∈ arguments, ∀ t ∈ arguments', Told text IsBehind s t) :
    Told (fun ss => argumentsText (ss.map text)) (· ≠ '<') arguments arguments' := by
  intro r r' behind behind' same
  beta_reduce at same
  cases arguments with
  | nil =>
    cases arguments' with
    | nil => exact ⟨rfl, eq_of_mark_append same⟩
    | cons t ts =>
      rw [argumentsText_append] at same
      have first : r = "<" ++ _ := String.empty_append.symm.trans same
      exact absurd rfl (of_leads_append "<" rfl (first ▸ behind))
  | cons s ss =>
    cases arguments' with
    | nil =>
      rw [argumentsText_append] at same
      have first : "<" ++ _ = r' := same.trans String.empty_append
      exact absurd rfl (of_leads_append "<" rfl (first ▸ behind'))
    | cons t ts =>
      rw [argumentsText_append, argumentsText_append] at same
      have told := told_joined "," (c := ',') rfl (.inl rfl) (List.cons_ne_nil s ss)
        (List.cons_ne_nil t ts) each
      have closes (r : String) : Leads (fun d => IsBehind d ∧ d ≠ ',') (">" ++ r) :=
        leads_append _ rfl ⟨.inr (.inl rfl), by decide⟩ r
      obtain ⟨lists, rest⟩ := told _ _ (closes r) (closes r') (eq_of_mark_append same)
      exact ⟨lists, eq_of_mark_append rest⟩

/-- A type can be told from its text with something behind that may stand behind types. -/
theorem told_text {s t : TypeShape} (named : s.IsNamed) (named' : t.IsNamed) :
    Told text IsBehind s t := by
  induction named generalizing t with
  | @mk head arguments depth own each ih =>
    cases named' with
    | @mk head' arguments' depth' own' each' =>
      intro r r' behind behind' same
      rw [text_mk, text_mk, String.append_assoc, String.append_assoc, String.append_assoc,
        String.append_assoc] at same
      have outside {r : String} (behind : Leads IsBehind r) (texts : List String) (depth : Nat) :
          Leads (TypeHead.isHeadChar · = false) (argumentsText texts ++ (brackets depth ++ r)) := by
        refine (leads_argumentsText (leads_brackets behind depth) texts).mono ?_
        rintro c (rfl | rfl | rfl | rfl | rfl) <;> decide
      have noArguments {r : String} (behind : Leads IsBehind r) (depth : Nat) :
          Leads (· ≠ '<') (brackets depth ++ r) := by
        refine (leads_brackets behind depth).mono ?_
        rintro c (rfl | rfl | rfl | rfl) <;> decide
      have noBrackets {r : String} (behind : Leads IsBehind r) : Leads (· ≠ '[') r := by
        refine behind.mono ?_
        rintro c (rfl | rfl | rfl) <;> decide
      obtain ⟨heads, behindHead⟩ := eq_of_append_of_leads own.all_text own'.all_text
        (outside behind _ _) (outside behind' _ _) same
      obtain ⟨rfl, behindArguments⟩ := told_argumentsText
        (fun s there t there' => ih s there (each' t there'))
        _ _ (noArguments behind _) (noArguments behind' _) behindHead
      obtain ⟨rfl, rest⟩ := told_brackets _ _ _ _ (noBrackets behind) (noBrackets behind')
        behindArguments
      rw [TypeHead.eq_of_text own own' heads]
      exact ⟨rfl, rest⟩

theorem exists_first {s : TypeShape} (named : s.IsNamed) :
    ∃ c rest, s.text.toList = c :: rest ∧ TypeHead.isHeadChar c = true := by
  cases named with
  | @mk head arguments depth own each =>
    obtain ⟨c, rest, first⟩ := own.exists_first
    refine ⟨c, rest ++ (argumentsText (arguments.map text)).toList ++ (brackets depth).toList,
      ?_, ?_⟩
    · rw [text_mk, String.toList_append, String.toList_append, first]
      rfl
    · exact List.all_eq_true.1 own.all_text c (first ▸ List.mem_cons_self)

/-- The types of a list can be told from their texts. -/
theorem eq_of_joined {ss ts : List TypeShape} (named : ∀ s ∈ ss, s.IsNamed)
    (named' : ∀ t ∈ ts, t.IsNamed)
    (same : joined "," (ss.map text) ++ ")" = joined "," (ts.map text) ++ ")") : ss = ts := by
  -- No type begins with what stands behind the list.
  have apart {s : TypeShape} {ss : List TypeShape} (named : s.IsNamed) :
      joined "," ((s :: ss).map text) ++ ")" ≠ joined "," ([].map text) ++ ")" := by
    obtain ⟨c, rest, first, is⟩ := exists_first named
    obtain ⟨more, begins⟩ := exists_joined_cons "," s.text (ss.map text)
    intro same
    have chars := congrArg (fun t : String => t.toList.head?) same
    beta_reduce at chars
    rw [List.map_cons, begins, String.toList_append, String.toList_append, first] at chars
    cases chars
    cases is
  cases ss with
  | nil =>
    cases ts with
    | nil => rfl
    | cons t ts => exact absurd same.symm (apart (named' t List.mem_cons_self))
  | cons s ss =>
    cases ts with
    | nil => exact absurd same (apart (named s List.mem_cons_self))
    | cons t ts =>
      have told := told_joined "," (c := ',') rfl (.inl rfl) (List.cons_ne_nil s ss)
        (List.cons_ne_nil t ts) fun s there t there' => told_text (named s there) (named' t there')
      have closed : Leads (fun d => IsBehind d ∧ d ≠ ',') ")" := by
        rintro d ⟨⟩
        exact ⟨.inr (.inr rfl), by decide⟩
      exact (told ")" ")" closed closed same).1

end

end TypeShape

end TekLang
