import TekLang.Proofs.Grammar.EchoExpression
import TekLang.Proofs.Grammar.Run
import TekLang.Proofs.Node.Fold
import TekLang.Proofs.Outcome

/-!
# Reading other tokens and counting from another number

Readers look at the kinds and the places of tokens and never at their spelling, and they count nodes
on from any number alike. So a `Translation`, which puts other spellings in the place of those of
the tokens and other numbers in the place of those of the nodes, makes no difference to what is
read: the tree is the same with the other spellings and numbers in it, and the faults are the same.
The one spelling that a fault quotes is that of a reserved word, which stays.
-/

namespace TekLang

/-- Another spelling for each token, and other numbers in the place of the numbers of nodes, which
    follow one another as these do. -/
structure Translation where
  lexeme : Token → String
  number : NodeId → NodeId
  lexeme_of_reserved (t : Token) : t.kind = .kwAbstract → lexeme t = t.lexeme
  number_succ (id : NodeId) : number (id + 1) = number id + 1

/-- A token with its other spelling. -/
def Translation.token (τ : Translation) (t : Token) : Token := { t with lexeme := τ.lexeme t }

/-- Things that consist of tokens and nodes. -/
class Translatable (α : Type) where
  translated : Translation → α → α

export Translatable (translated)

instance : Translatable Token := ⟨Translation.token⟩

instance : Translatable Node where
  translated τ := Node.fold fun id span form => ⟨τ.number id, span, form.mapTokens τ.token⟩

instance : Translatable Unit := ⟨fun _ => id⟩

instance : Translatable Bool := ⟨fun _ => id⟩

instance : Translatable TokenKind := ⟨fun _ => id⟩

instance : Translatable Span := ⟨fun _ => id⟩

section Collections

variable {α β : Type} [Translatable α] [Translatable β]

instance : Translatable (List α) := ⟨fun τ => List.map (translated τ)⟩

instance : Translatable (Option α) := ⟨fun τ => Option.map (translated τ)⟩

instance : Translatable (α × β) := ⟨fun τ => Prod.map (translated τ) (translated τ)⟩

end Collections

instance : Translatable (Form Node) where
  translated τ form := (form.mapTokens τ.token).map (translated τ)

/-- Every token with its own spelling and every node with its own number. -/
def Translation.refl : Translation where
  lexeme := Token.lexeme
  number := id
  lexeme_of_reserved _ _ := rfl
  number_succ _ := rfl

variable {τ : Translation}

@[simp] theorem Token.kind_translated (t : Token) : (translated τ t).kind = t.kind := rfl

@[simp] theorem Token.span_translated (t : Token) : (translated τ t).span = t.span := rfl

/-- A reserved word stays as it is. -/
theorem Token.translated_of_reserved {t : Token} (reserved : t.kind = .kwAbstract) :
    translated τ t = t := by
  obtain ⟨kind, lexeme, span⟩ := t
  exact congrArg (Token.mk kind · span) (τ.lexeme_of_reserved _ reserved)

namespace Node

theorem translated_mk (id : NodeId) (span : Span) (form : Form Node) :
    translated τ (⟨id, span, form⟩ : Node) = ⟨τ.number id, span, translated τ form⟩ := by
  refine (fold_mk _ id span form).trans ?_
  rw [Form.mapTokens_map]
  rfl

@[simp] theorem span_translated (n : Node) : (translated τ n).span = n.span := by
  obtain ⟨id, span, form⟩ := n
  rw [translated_mk]

@[simp] theorem form_translated (n : Node) : (translated τ n).form = translated τ n.form := by
  obtain ⟨id, span, form⟩ := n
  rw [translated_mk]

@[simp] theorem translated_refl (n : Node) : translated .refl n = n := by
  refine (eq_fold (fun id span form => ?_) n).symm.trans (id_eq n)
  rw [Form.map_id]
  exact congrArg (Node.mk id span) form.mapTokens_id.symm

end Node

namespace Parser

theorem isGenericCallee_translated (form : Form Node) :
    isGenericCallee (translated τ form) = isGenericCallee form := isGenericCallee_map _ _ form

theorem isAssignable_translated (form : Form Node) :
    isAssignable (translated τ form) = isAssignable form := isAssignable_map _ _ form

theorem Section.ofMember_translated (n : Node) : ofMember (translated τ n) = ofMember n := by
  obtain ⟨id, span, form⟩ := n
  cases form with
  | classMember isStatic => cases isStatic <;> rfl
  | _ => rfl

theorem sections_translated (members : List Node) (part : Section) :
    (translated τ members).filter (Section.ofMember · = part) =
      translated τ (members.filter (Section.ofMember · = part)) := by
  refine List.filter_map.trans ?_
  simp only [Function.comp_def, Section.ofMember_translated]
  rfl

end Parser

end TekLang
