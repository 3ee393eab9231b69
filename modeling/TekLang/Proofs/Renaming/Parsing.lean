import TekLang.Proofs.Grammar.Tape
import TekLang.Proofs.Renaming.Trees

/-!
# Reading tokens with other names

A renaming gives the names another spelling and leaves everything else as it is, the numbers of the
nodes included. So it is a translation: with other names readers read the same tree with other names
in it, and fail with the same fault.
-/

namespace TekLang

/-- The other spellings that a renaming gives. -/
def Renaming.translation (ρ : Renaming) : Translation :=
  { Translation.refl with
    lexeme := fun t => (renamed ρ t).lexeme
    lexeme_of_reserved := by
      intro t reserved
      have other : t.kind ≠ .identifier := by
        rw [reserved]
        decide
      rw [Token.renamed_of_ne other] }

variable {ρ : Renaming}

theorem Node.translated_translation (n : Node) : translated ρ.translation n = renamed ρ n := by
  refine (eq_fold (fun id span form => ?_) n).symm
  rw [Form.mapTokens_map]
  exact renamed_mk id span form

/-- The top of a program is read from tokens with other names as it is with its own. -/
theorem topLevel_renamed (rest : List Token) (stop : Token) :
    let top := topLevel rest ⟨rest, stop, stop, 0⟩
    topLevel (renamed ρ rest) ⟨renamed ρ rest, renamed ρ stop, renamed ρ stop, 0⟩ =
      ⟨renamed ρ top.body, top.errors, top.nextId⟩ := by
  intro top
  have read := topLevel_translated (τ := ρ.translation) ⟨rest, stop, stop, 0⟩
  refine read.trans (congrArg (TopLevel.mk · _ _) ?_)
  exact List.map_congr_left fun n _ => n.translated_translation

theorem endOfInput_renamed (tokens : List Token) :
    endOfInput (renamed ρ tokens) = renamed ρ (endOfInput tokens) := by
  have last : (renamed ρ tokens).getLast?.map (·.span.stop) =
      tokens.getLast?.map (·.span.stop) := by
    change (tokens.map (renamed ρ)).getLast?.map _ = _
    rw [List.getLast?_map, Option.map_map]
    rfl
  rw [endOfInput, endOfInput, last]
  rfl

/-- With other names a list of tokens is read with the same faults, and as the same tree with other
    names in it. -/
theorem parse_renamed (tokens : List Token) :
    (parse (renamed ρ tokens)).program = renamed ρ (parse tokens).program ∧
      (parse (renamed ρ tokens)).diagnostics = (parse tokens).diagnostics := by
  have rest : (renamed ρ tokens).takeWhile (·.kind ≠ .eof) =
      renamed ρ (tokens.takeWhile (·.kind ≠ .eof)) := List.takeWhile_map
  have stop : ((renamed ρ tokens).find? (·.kind = .eof)).getD (endOfInput (renamed ρ tokens)) =
      renamed ρ ((tokens.find? (·.kind = .eof)).getD (endOfInput tokens)) := by
    have found : (renamed ρ tokens).find? (·.kind = .eof) =
        (tokens.find? (·.kind = .eof)).map (renamed ρ) := List.find?_map ..
    rw [found, endOfInput_renamed]
    cases tokens.find? (·.kind = .eof) <;> rfl
  rw [parse_eq, parse_eq]
  unfold Cursor.ofTokens Cursor.upcoming
  rw [rest, stop]
  generalize tokens.takeWhile (·.kind ≠ .eof) = rest
  generalize (tokens.find? (·.kind = .eof)).getD (endOfInput tokens) = stop
  have top := topLevel_renamed (ρ := ρ) rest stop
  have first : ((renamed ρ rest).headD (renamed ρ stop)).span = (rest.headD stop).span := by
    cases rest <;> rfl
  dsimp only
  rw [top, first, Node.renamed_mk]
  exact ⟨rfl, rfl⟩

end TekLang
