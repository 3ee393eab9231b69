import TekLang.Proofs.Grammar.Composition
import TekLang.Proofs.Grammar.Nesting

/-!
# Where faults are put down

A fault is put down to the token that is up next where reading broke off, or to one that was taken
before. So a fault lies no further back than where its declaration begins, and no later declaration
begins in front of it: the faults of a text come in the order of the text.
-/

namespace TekLang

/-- The place is that of a token that is taken on the way from one cursor to the other, or of the
    token that is up next there. -/
def Passes (c c' : Cursor) (place : Position) : Prop :=
  ∃ used t, c.rest = used ++ c'.rest ∧ t ∈ used ++ [c'.upcoming] ∧ t.span.start = place

namespace Passes

variable {c c₁ c' : Cursor} {place : Position}

theorem upcoming (c : Cursor) : Passes c c c.upcoming.span.start :=
  ⟨[], c.upcoming, rfl, List.mem_singleton_self _, rfl⟩

theorem of_moves (moves : Moves c c₁) (passes : Passes c₁ c' place) : Passes c c' place := by
  obtain ⟨used, t, taken, there, start⟩ := passes
  obtain ⟨before, split⟩ := moves.rest_suffix
  refine ⟨before ++ used, t, ?_, ?_, start⟩
  · rw [← split, taken, List.append_assoc]
  · rw [List.append_assoc]
    exact List.mem_append_right _ there

/-- A token is passed that is taken first. -/
theorem of_taken {t : Token} {rest : List Token} (ahead : c.rest = t :: rest)
    (moves : Moves (c.behind t rest) c') : Passes c c' t.span.start := by
  obtain ⟨used, split⟩ := moves.rest_suffix
  refine ⟨t :: used, t, ?_, List.mem_cons_self, rfl⟩
  rw [ahead, List.cons_append, split]
  rfl

end Passes

namespace Parser

variable {α ι : Type}

/-- Whatever fault there is, it is put down to a token that was taken or is up next. -/
def Blames (p : Parser α) : Prop := ∀ c e c', p c = .error e c' → Passes c c' e.span.start

theorem Composed.blames {inner inner' : ι → Parser Node} {known : Position → Prop}
    {p q : Parser α} (composed : Composed inner inner' known p q)
    (forward : ∀ k, Forward (inner k)) (asked : ∀ k, Blames (inner k)) {c c' : Cursor}
    {e : SyntaxError} (run : p c = .error e c') :
    known e.span.start ∨ Passes c c' e.span.start := by
  induction composed generalizing c c' e with
  | steady _ succeeds =>
    obtain ⟨a, c₁, fine⟩ := succeeds c
    rw [fine] at run
    cases run
  | fail =>
    cases run
    exact .inr (.upcoming c)
  | failAt _ place =>
    cases run
    exact .inl place
  | inner k => exact .inr (asked k c e c' run)
  | @andThen _ _ _ p q f g first second ih_first ih_second =>
    rw [bind_apply] at run
    cases found : p c with
    | ok a c₁ =>
      rw [found] at run
      exact (ih_second a c c₁ found run).imp_right
        (Passes.of_moves ((first.forward forward).ok found))
    | error e₁ c₁ =>
      rw [found] at run
      cases run
      exact ih_first found

theorem TokenFirst.blames {inner : Construct → Parser Node} {p : Parser Node}
    (opens : TokenFirst inner inner p p) (forward : ∀ k, Forward (inner k))
    (asked : ∀ k, Blames (inner k)) {c c' : Cursor} {e : SyntaxError} {t : Token}
    {rest : List Token} (ahead : c.rest = t :: rest) (run : p c = .error e c') :
    Passes c c' e.span.start := by
  obtain ⟨f, g, here, -, composed⟩ := opens c t rest ahead
  rw [here] at run
  rcases composed.blames forward asked run with same | passes
  · rw [same]
    exact .of_taken ahead ((composed.forward forward).error run)
  · exact .of_moves (.take ahead (.refl _)) passes

theorem blames_constructWithin (loop : List Token) (k : Construct) :
    Blames (constructWithin loop k) := by
  induction loop generalizing k with
  | nil =>
    rintro c _ _ ⟨⟩
    exact .upcoming c
  | cons round loop ih =>
    intro c e c' run
    rw [constructWithin_cons] at run
    cases ahead : c.rest with
    | nil =>
      rw [constructWith_atEnd k ahead] at run
      cases run
      exact .upcoming c
    | cons t rest =>
      exact (TokenFirst.constructWith k).blames (forward_constructWithin loop) ih ahead run

theorem blames_construct (k : Construct) : Blames (construct k) :=
  fun c => blames_constructWithin c.rest k c

end Parser

end TekLang
