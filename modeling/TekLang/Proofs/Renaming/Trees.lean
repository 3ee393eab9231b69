import TekLang.Proofs.Grammar.Cursor
import TekLang.Proofs.Node.Reading
import TekLang.Proofs.Node.Unplaced
import TekLang.Proofs.Outcome
import TekLang.Proofs.Renaming.Text

/-!
# Renaming in trees

`Renamable` collects the kinds of thing in which names can be replaced: tokens, trees and what is
made of them. A computation `Commutes` with a renaming if it makes no difference whether names are
replaced before or after it.
-/

namespace TekLang

/-- Things in which names can be replaced. -/
class Renamable (α : Type) where
  renamed : Renaming → α → α

export Renamable (renamed)

/-- A token that is a name gets the new one. -/
instance : Renamable Token where
  renamed ρ t := { t with lexeme := if t.kind = .identifier then ρ.image t.lexeme else t.lexeme }

instance : Renamable Node := ⟨fun ρ => Node.mapTokens (renamed ρ)⟩

instance : Renamable Unit := ⟨fun _ => id⟩

instance : Renamable Nat := ⟨fun _ => id⟩

section Collections

variable {α β : Type} [Renamable α] [Renamable β]

instance : Renamable (List α) := ⟨fun ρ => List.map (renamed ρ)⟩

instance : Renamable (Option α) := ⟨fun ρ => Option.map (renamed ρ)⟩

instance : Renamable (α × β) := ⟨fun ρ => Prod.map (renamed ρ) (renamed ρ)⟩

end Collections

instance : Renamable (Form Node) where
  renamed ρ form := (form.mapTokens (renamed ρ)).map (renamed ρ)

variable {ρ : Renaming}

theorem Token.lexeme_renamed {t : Token} (name : t.kind = .identifier) :
    (renamed ρ t).lexeme = ρ.image t.lexeme := if_pos name

/-- Any other token stays as it is. -/
theorem Token.renamed_of_ne {t : Token} (other : t.kind ≠ .identifier) :
    renamed ρ t = t := by
  obtain ⟨kind, lexeme, span⟩ := t
  exact congrArg (Token.mk kind · span) (if_neg other)

theorem Node.renamed_mk (id : NodeId) (span : Span) (form : Form Node) :
    renamed ρ (⟨id, span, form⟩ : Node) = ⟨id, span, renamed ρ form⟩ :=
  congrArg (Node.mk id span) (Node.mapForm_eq _ form)

@[simp] theorem Node.id_renamed (n : Node) : (renamed ρ n).id = n.id := by
  obtain ⟨id, span, form⟩ := n
  rfl

@[simp] theorem Node.span_renamed (n : Node) : (renamed ρ n).span = n.span := by
  obtain ⟨id, span, form⟩ := n
  rfl

@[simp] theorem Node.form_renamed (n : Node) : (renamed ρ n).form = renamed ρ n.form := by
  obtain ⟨id, span, form⟩ := n
  rw [Node.renamed_mk]

@[simp] theorem Node.start_renamed (n : Node) : (renamed ρ n).start = n.start :=
  congrArg Span.start n.span_renamed

/-! ### What stays as it is -/

namespace Form

variable {α β : Type}

theorem kind_map (f : α → β) (form : Form α) : (form.map f).kind = form.kind := by
  cases form with
  | variableDecl _ _ value => cases value <;> rfl
  | functionDecl _ _ _ _ body => cases body <;> rfl
  | conditional use | elseBranch use => cases use <;> rfl
  | literal sort => cases sort <;> rfl
  | jumpStmt jump => cases jump <;> rfl
  | _ => rfl

theorem kind_mapTokens (f : Token → Token) (form : Form α) :
    (form.mapTokens f).kind = form.kind := by
  cases form with
  | variableDecl _ _ value => cases value <;> rfl
  | functionDecl _ _ _ _ body => cases body <;> rfl
  | conditional use | elseBranch use => cases use <;> rfl
  | literal sort => cases sort <;> rfl
  | jumpStmt jump => cases jump <;> rfl
  | _ => rfl

theorem parts_map (f : α → β) (form : Form α) : (form.map f).parts = form.parts.map f := by
  cases form with
  | functionDecl _ _ _ _ body => cases body <;> simp [map, parts, Option.toList_map]
  | _ => simp [map, parts, Option.toList_map]

theorem parts_mapTokens (f : Token → Token) (form : Form α) :
    (form.mapTokens f).parts = form.parts := by
  cases form <;> rfl

theorem declaredName?_map (f : α → β) (form : Form α) :
    (form.map f).declaredName? = form.declaredName? := by
  cases form <;> rfl

theorem declaredName?_mapTokens (f : Token → Token) (form : Form α) :
    (form.mapTokens f).declaredName? = form.declaredName?.map f := by
  cases form with
  | importDecl path rename =>
    cases rename with
    | none => exact List.getLast?_map
    | some => rfl
  | importedName _ rename => cases rename <;> rfl
  | _ => rfl

@[simp] theorem kind_renamed (form : Form Node) : (renamed ρ form).kind = form.kind :=
  (kind_map _ _).trans (kind_mapTokens _ _)

@[simp] theorem parts_renamed (form : Form Node) :
    (renamed ρ form).parts = renamed ρ form.parts := by
  rw [← parts_mapTokens (renamed ρ) form]
  exact parts_map _ _

@[simp] theorem declaredName?_renamed (form : Form Node) :
    (renamed ρ form).declaredName? = renamed ρ form.declaredName? :=
  (declaredName?_map _ _).trans (declaredName?_mapTokens _ _)

end Form

namespace Node

@[simp] theorem kind_renamed (n : Node) : (renamed ρ n).kind = n.kind := by
  rw [kind, form_renamed, Form.kind_renamed, kind]

@[simp] theorem declaredName?_renamed (n : Node) :
    (renamed ρ n).declaredName? = renamed ρ n.declaredName? := by
  rw [declaredName?, form_renamed, Form.declaredName?_renamed, declaredName?]

theorem children_renamed (n : Node) : (renamed ρ n).children = renamed ρ n.children := by
  obtain ⟨id, span, form⟩ := n
  have parts := Form.parts_renamed (ρ := ρ) form
  cases form with
  | classDecl name generics bases constructors statics instances =>
    rw [renamed_mk]
    change generics.map (renamed ρ) ++ bases.map (renamed ρ) ++
      inSourceOrder start (constructors.map (renamed ρ) ++ statics.map (renamed ρ) ++
        instances.map (renamed ρ)) =
      (generics ++ bases ++ inSourceOrder start (constructors ++ statics ++ instances)).map
        (renamed ρ)
    rw [← List.map_append, ← List.map_append, ← List.map_append, ← map_inSourceOrder start_renamed,
      ← List.map_append]
  | _ =>
    rw [renamed_mk]
    exact parts

theorem descendants_renamed (n : Node) : (renamed ρ n).descendants = renamed ρ n.descendants := by
  induction n using Node.induction_on_children with
  | step n ih =>
    rw [descendants_eq, descendants_eq, children_renamed]
    refine congrArg (List.cons _) ((List.flatMap_map _ _ _).trans ?_)
    exact (List.flatMap_congr ih).trans List.map_flatMap.symm

end Node

/-! ### What makes no difference to a computation -/

/-- An outcome with other names in what came out. -/
instance {ε σ α : Type} [Renamable ε] [Renamable σ] [Renamable α] :
    Renamable (EStateM.Result ε σ α) where
  renamed ρ
    | .ok a s => .ok (renamed ρ a) (renamed ρ s)
    | .error e s => .error (renamed ρ e) (renamed ρ s)

section Computations

variable {ε σ α β : Type} [Renamable ε] [Renamable σ] [Renamable α] [Renamable β]

/-- The second computation makes of a state with other names what the first makes of the state, with
    other names. -/
def Commutes (ρ : Renaming) (p q : EStateM ε σ α) : Prop := ∀ s, q (renamed ρ s) = renamed ρ (p s)

namespace Commutes

theorem bind {p q : EStateM ε σ α} {f g : α → EStateM ε σ β} (first : Commutes ρ p q)
    (second : ∀ a, Commutes ρ (f a) (g (renamed ρ a))) : Commutes ρ (p >>= f) (q >>= g) := by
  intro s
  rw [bind_apply, bind_apply, first s]
  cases p s with
  | ok a s' => exact second a s'
  | error e s' => rfl

theorem pure (a : α) :
    Commutes ρ (Pure.pure a : EStateM ε σ α) (Pure.pure (renamed ρ a)) := fun _ => rfl

theorem ite {c d : Prop} [Decidable c] [Decidable d] {p q p' q' : EStateM ε σ α} (same : d ↔ c)
    (yes : Commutes ρ p q) (no : Commutes ρ p' q') :
    Commutes ρ (if c then p else p') (if d then q else q') := by
  by_cases holds : c
  · rw [if_pos holds, if_pos (same.2 holds)]
    exact yes
  · rw [if_neg holds, if_neg (mt same.1 holds)]
    exact no

end Commutes

end Computations

end TekLang
