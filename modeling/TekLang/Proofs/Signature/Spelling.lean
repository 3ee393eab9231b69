import TekLang.Proofs.Grammar.Printing
import TekLang.Proofs.Signature.Shape
import TekLang.Proofs.Token.Compact

/-!
# Types as words

The words of a type are told by its structure. Without blanks between them they are the text of the
structure, and whatever tokens have their faces are a type of that structure again.
-/

namespace TekLang

/-- The words of what a type begins with. -/
def TypeHead.tokens : TypeHead → List Token
  | path names => markedOff .dot (names.map fun name => [.name name])
  | place _ => []

namespace TypeShape

/-- The words of type arguments that are each given by theirs. -/
def argumentsTokens : List (List Token) → List Token
  | [] => []
  | parts => .mark .less :: (markedOff .comma parts ++ [.mark .greater])

/-- The words of as many pairs of brackets as an array has dimensions. -/
def bracketTokens : Nat → List Token
  | 0 => []
  | depth + 1 => .mark .leftBracket :: .mark .rightBracket :: bracketTokens depth

mutual

/-- The words of a type that can be written. -/
def tokens : TypeShape → List Token
  | ⟨head, arguments, depth⟩ =>
    head.tokens ++ argumentsTokens (tokensList arguments) ++ bracketTokens depth

/-- The words of each type of a list. -/
def tokensList : List TypeShape → List (List Token)
  | [] => []
  | s :: ss => tokens s :: tokensList ss

end

@[simp] theorem tokensList_eq (ss : List TypeShape) : tokensList ss = ss.map tokens := by
  induction ss with
  | nil => rfl
  | cons s ss ih => simp [tokensList, ih]

theorem tokens_mk (head : TypeHead) (arguments : List TypeShape) (depth : Nat) :
    tokens ⟨head, arguments, depth⟩ =
      head.tokens ++ argumentsTokens (arguments.map tokens) ++ bracketTokens depth := by
  rw [tokens, tokensList_eq]

end TypeShape

/-! ## The text of the words -/

theorem letters_markedOff (kind : TokenKind) {α : Type} {f : α → String} {g : α → List Token}
    {xs : List α} (each : ∀ x ∈ xs, letters (g x) = (f x).toList) :
    letters (markedOff kind (xs.map g)) = (joined kind.describe (xs.map f)).toList := by
  induction xs with
  | nil => rfl
  | cons x xs ih =>
    obtain ⟨first, others⟩ := List.forall_mem_cons.1 each
    cases xs with
    | nil =>
      rw [List.map_singleton, List.map_singleton, markedOff_singleton, joined, first]
    | cons y xs =>
      have rest := ih others
      rw [List.map_cons, List.map_cons] at rest ⊢
      rw [List.map_cons, List.map_cons, markedOff_cons_cons, letters_append, first, joined,
        String.toList_append, String.toList_append, ← rest, List.append_assoc]
      rfl

theorem TypeHead.IsWritten.letters_tokens {head : TypeHead} (written : head.IsWritten) :
    letters head.tokens = head.text.toList := by
  obtain ⟨names, rfl, -⟩ := written.exists_path
  have each : ∀ name ∈ names, letters [Token.name name] = (id name).toList :=
    fun name _ => List.flatMap_singleton ..
  have path := letters_markedOff .dot each
  rw [List.map_id] at path
  exact path

namespace TypeShape

theorem letters_argumentsTokens {arguments : List TypeShape}
    (each : ∀ s ∈ arguments, letters s.tokens = s.text.toList) :
    letters (argumentsTokens (arguments.map tokens)) =
      (Signature.argumentsText (arguments.map text)).toList := by
  cases arguments with
  | nil => rfl
  | cons s ss =>
    have list := letters_markedOff .comma each
    change letters ([Token.mark .less] ++ (_ ++ [Token.mark .greater])) =
      ("<" ++ joined "," ((s :: ss).map text) ++ ">").toList
    rw [letters_append, letters_append, String.toList_append, String.toList_append,
      List.append_assoc]
    exact congrArg (fun cs => letters [.mark .less] ++ (cs ++ letters [.mark .greater])) list

theorem letters_bracketTokens (depth : Nat) :
    letters (bracketTokens depth) = (Signature.brackets depth).toList := by
  induction depth with
  | zero => rfl
  | succ depth ih =>
    rw [Signature.brackets, String.toList_append, ← ih]
    rfl

/-- Without blanks the words of a type are its text. -/
theorem letters_tokens {s : TypeShape} (written : s.IsWritten) :
    letters s.tokens = s.text.toList := by
  induction written with
  | mk own each ih =>
    rw [tokens_mk, text_mk, letters_append, letters_append, own.letters_tokens,
      letters_argumentsTokens ih, letters_bracketTokens, String.toList_append, String.toList_append]

end TypeShape

/-! ## The words stand without blanks -/

theorem TypeHead.IsWritten.compact {head : TypeHead} (written : head.IsWritten) :
    Compact head.tokens := by
  obtain ⟨names, rfl, -, named⟩ := written.exists_path
  refine .markedOff rfl (fun _ => rfl) ?_
  intro word there
  obtain ⟨name, member, rfl⟩ := List.mem_map.1 there
  exact .name (named name member)

namespace TypeShape

variable {ts : List Token}

theorem compact_append_argumentsTokens (front : Compact ts) {arguments : List (List Token)}
    (each : ∀ us ∈ arguments, Compact us) : Compact (ts ++ argumentsTokens arguments) := by
  cases arguments with
  | nil =>
    rw [argumentsTokens, List.append_nil]
    exact front
  | cons us arguments =>
    have list : Compact (markedOff .comma (us :: arguments)) :=
      .markedOff rfl (fun _ => rfl) each
    exact front.insert rfl (fun _ => rfl) (list.insert rfl (fun _ => rfl) .nil)

theorem compact_append_bracketTokens (front : Compact ts) (depth : Nat) :
    Compact (ts ++ bracketTokens depth) := by
  induction depth generalizing ts with
  | zero =>
    rw [bracketTokens, List.append_nil]
    exact front
  | succ depth ih => exact front.insert_brackets (ih .nil)

theorem compact_tokens {s : TypeShape} (written : s.IsWritten) : Compact s.tokens := by
  induction written with
  | @mk head arguments depth own each ih =>
    rw [tokens_mk]
    refine compact_append_bracketTokens (compact_append_argumentsTokens own.compact ?_) depth
    intro us there
    obtain ⟨s, member, rfl⟩ := List.mem_map.1 there
    exact ih s member

end TypeShape

/-! ## The words are a type -/

section Writing

variable {ts us vs : List Token}

/-- Words are the same but for where they stand. -/
def SameFaces (ts us : List Token) : Prop := ts.map Token.face = us.map Token.face

namespace SameFaces

theorem append_inv (same : SameFaces ts (us ++ vs)) :
    ∃ xs ys, ts = xs ++ ys ∧ SameFaces xs us ∧ SameFaces ys vs := by
  unfold SameFaces at same
  rw [List.map_append] at same
  exact List.map_eq_append_iff.1 same

theorem cons_inv {u : Token} (same : SameFaces ts (u :: us)) :
    ∃ t xs, ts = t :: xs ∧ t.face = u.face ∧ SameFaces xs us := by
  obtain ⟨t, xs, split, first, others⟩ := List.map_eq_cons_iff.1 same
  exact ⟨t, xs, split, first, others⟩

theorem nil_inv (same : SameFaces ts []) : ts = [] := List.map_eq_nil_iff.1 same

/-- What has the face of a mark is a word of its kind. -/
theorem mark_inv {kind : TokenKind} (same : SameFaces ts (.mark kind :: us)) :
    ∃ t xs, ts = t :: xs ∧ t.kind = kind ∧ SameFaces xs us := by
  obtain ⟨t, xs, rfl, face, others⟩ := same.cons_inv
  exact ⟨t, xs, rfl, congrArg Prod.fst face, others⟩

/-- What has the face of a name is the name. -/
theorem name_inv {lexeme : String} (same : SameFaces ts (.name lexeme :: us)) :
    ∃ t xs, ts = t :: xs ∧ t.kind = .identifier ∧ t.lexeme = lexeme ∧ SameFaces xs us := by
  obtain ⟨t, xs, rfl, face, others⟩ := same.cons_inv
  have kind : t.kind = .identifier := congrArg Prod.fst face
  refine ⟨t, xs, rfl, kind, ?_, others⟩
  have spelling := congrArg Prod.snd face
  rw [Token.face, kind] at spelling
  exact Option.some.inj spelling

end SameFaces

theorem WritesAll.of_kind {t : Token} {kind : TokenKind} {items : List Item} (same : t.kind = kind)
    (word : kind ≠ .eof) (others : WritesAll items ts) :
    WritesAll (.word t :: items) (t :: ts) :=
  .word (same ▸ word) others

namespace TypeShape

theorem exists_path (name : String) (names : List String)
    (same : SameFaces ts (TypeHead.path (name :: names)).tokens) : ∃ first others dots us,
      ts = first :: us ∧ first.kind = .identifier ∧
        (first :: others).map (·.lexeme) = name :: names ∧
        EachAfter .dot (IsWord .identifier) others dots ∧ WritesAll dots us := by
  induction names generalizing name ts with
  | nil =>
    obtain ⟨first, us, rfl, kind, rfl, none⟩ := SameFaces.name_inv same
    obtain rfl := none.nil_inv
    exact ⟨first, [], [], [], rfl, kind, rfl, .nil, .nil⟩
  | cons next names ih =>
    obtain ⟨first, us, rfl, kind, rfl, rest⟩ := SameFaces.name_inv same
    obtain ⟨dot, us, rfl, marked, rest⟩ := SameFaces.mark_inv rest
    obtain ⟨second, others, dots, us, rfl, kind', spelt, path, written⟩ := ih next rest
    exact ⟨first, second :: others, _, _, rfl, kind, congrArg _ spelt,
      .cons marked (.mk kind') path,
      .of_kind marked nofun (.of_kind kind' nofun written)⟩

theorem exists_dimensions (depth : Nat) (same : SameFaces ts (bracketTokens depth)) :
    ∃ pairs brackets, pairs.length = depth ∧
      EachAfter .leftBracket (IsWord .rightBracket) pairs brackets ∧ WritesAll brackets ts := by
  induction depth generalizing ts with
  | zero =>
    obtain rfl := same.nil_inv
    exact ⟨[], [], rfl, .nil, .nil⟩
  | succ depth ih =>
    obtain ⟨left, us, rfl, opens, same⟩ := SameFaces.mark_inv same
    obtain ⟨right, us, rfl, closes, same⟩ := SameFaces.mark_inv same
    obtain ⟨pairs, brackets, rfl, dimensions, written⟩ := ih same
    exact ⟨right :: pairs, _, rfl, .cons opens (.mk closes) dimensions,
      .of_kind opens nofun (.of_kind closes nofun written)⟩

/-- Tokens with the faces of the words of the structure are a type that has it. -/
def IsTypeOf (s : TypeShape) : Prop :=
  ∀ ts, SameFaces ts s.tokens → ∃ n, Writes .type n ts ∧ n.typeShape = s

theorem exists_listed (s : TypeShape) (ss : List TypeShape) (each : ∀ t ∈ s :: ss, t.IsTypeOf)
    (same : SameFaces ts (markedOff .comma ((s :: ss).map tokens) ++ [.mark .greater])) :
    ∃ ns items, ns.map Node.typeShape = s :: ss ∧ Listed .type .greater ns items ∧
      WritesAll items ts := by
  induction ss generalizing s ts with
  | nil =>
    rw [List.map_singleton, markedOff_singleton] at same
    obtain ⟨us, vs, rfl, same, last⟩ := same.append_inv
    obtain ⟨n, written, rfl⟩ := each s List.mem_cons_self us same
    obtain ⟨greater, vs, rfl, closes, none⟩ := last.mark_inv
    obtain rfl := none.nil_inv
    exact ⟨[n], _, rfl, .last closes, .part written (.of_kind closes nofun .nil)⟩
  | cons t ss ih =>
    obtain ⟨here, others⟩ := List.forall_mem_cons.1 each
    rw [List.map_cons, List.map_cons, markedOff_cons_cons, List.append_assoc, List.cons_append]
      at same
    obtain ⟨us, vs, rfl, same, rest⟩ := same.append_inv
    obtain ⟨n, written, rfl⟩ := here us same
    obtain ⟨comma, vs, rfl, separates, rest⟩ := rest.mark_inv
    obtain ⟨ns, items, shapes, listed, writtenOthers⟩ := ih t others rest
    exact ⟨n :: ns, _, congrArg _ shapes, .cons separates listed,
      .part written (.of_kind separates nofun writtenOthers)⟩

theorem exists_arguments (ss : List TypeShape) (each : ∀ s ∈ ss, s.IsTypeOf)
    (same : SameFaces ts (argumentsTokens (ss.map tokens))) : ∃ ns items,
      ns.map Node.typeShape = ss ∧ InAngles .type ns items ∧ WritesAll items ts := by
  cases ss with
  | nil =>
    obtain rfl := same.nil_inv
    exact ⟨[], [], rfl, .none, .nil⟩
  | cons s ss =>
    obtain ⟨less, us, rfl, opens, same⟩ := SameFaces.mark_inv same
    obtain ⟨ns, items, shapes, listed, written⟩ := exists_listed s ss each same
    exact ⟨ns, _, shapes, .some opens listed, .of_kind opens nofun written⟩

/-- Every structure that can be written is read off its words. -/
theorem IsWritten.isTypeOf {s : TypeShape} (written : s.IsWritten) : s.IsTypeOf := by
  induction written with
  | @mk head arguments depth own each ih =>
    intro ts same
    obtain ⟨names, rfl, some, -⟩ := own.exists_path
    obtain ⟨name, names, rfl⟩ := List.exists_cons_of_ne_nil some
    rw [tokens_mk, List.append_assoc] at same
    obtain ⟨us, vs, rfl, same, rest⟩ := same.append_inv
    obtain ⟨first, others, dots, us, rfl, named, spelt, path, writtenPath⟩ :=
      exists_path name names same
    obtain ⟨vs, ws, rfl, same, rest⟩ := rest.append_inv
    obtain ⟨ns, args, shapes, inAngles, writtenArguments⟩ := exists_arguments arguments ih same
    obtain ⟨pairs, brackets, rfl, dimensions, writtenBrackets⟩ := exists_dimensions depth rest
    have layout := WrittenAs.typeRef named path inAngles dimensions
    refine ⟨⟨0, default, _⟩, .phrase layout (.of_kind named nofun
      (writtenPath.append (writtenArguments.append writtenBrackets))), ?_⟩
    rw [Node.typeShape_typeRef, spelt, shapes]

end TypeShape

end Writing

end TekLang
