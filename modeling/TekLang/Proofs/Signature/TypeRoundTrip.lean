import TekLang.Proofs.Signature.Spelling

/-!
# Reading types back from signatures

The text of a type, as it stands in signatures, is read as a type of its structure. So types have
one text only if they have one structure.
-/

namespace TekLang

/-- Bare trees have the structures that the trees had. -/
theorem Node.typeShape_bare (n : Node) : n.bare.typeShape = n.typeShape := by
  induction n using Node.induction_on_children with
  | step n ih =>
    obtain ⟨id, span, form⟩ := n
    rw [bare_mk]
    cases form with
    | typeRef path arguments depth =>
      rw [Form.map, typeShape_typeRef, typeShape_typeRef, List.map_map]
      exact congrArg (TypeShape.mk _ · _)
        (List.map_congr_left fun m there => ih m (Node.mem_children.2 there))
    | _ => rfl

namespace TypeShape

variable {s : TypeShape}

/-- Without generic parameters no place is put for a name. -/
theorem IsWritten.placed_nil (written : s.IsWritten) : s.placed [] = s := by
  induction written with
  | @mk head arguments depth own each ih =>
    have kept : head.placed [] = head := by
      obtain ⟨names, rfl, -⟩ := own.exists_path
      exact (TypeHead.placed_or [] names).resolve_left nofun
    rw [placed, mapHeads_mk, kept]
    exact congrArg (TypeShape.mk _ · _) ((List.map_congr_left ih).trans (List.map_id _))

theorem IsWritten.tokens_ne_nil (written : s.IsWritten) : s.tokens ≠ [] := by
  cases written with
  | mk own =>
    obtain ⟨names, rfl, some, -⟩ := own.exists_path
    obtain ⟨name, names, rfl⟩ := List.exists_cons_of_ne_nil some
    intro none
    rw [tokens_mk, List.append_assoc] at none
    have none := (List.append_eq_nil_iff.1 none).1
    cases names <;> cases none

end TypeShape

/-- A variable that is declared with the type of that text and without a value. -/
def declared (type : String) : String := "var x: " ++ type ++ "\n"

/-- The line of a declaration is read as its words, those of the type among them. -/
theorem lex_declared {s : TypeShape} (written : s.IsWritten) :
    (lex (declared s.text)).diagnostics = [] ∧
      SameFaces (lex (declared s.text)).tokens
        (.mark .kwVar :: .name "x" :: .mark .colon ::
          (s.tokens ++ [.mark .newline, .mark .eof])) := by
  obtain ⟨first, rest, tokens⟩ := List.exists_cons_of_ne_nil written.tokens_ne_nil
  have compact := TypeShape.compact_tokens written
  have text := TypeShape.letters_tokens written
  rw [tokens] at compact text
  have spelling : IsWordSpelling (Token.mark .kwVar).lexeme.toList :=
    ⟨'v', ['a', 'r'], by decide, by decide,
      List.forall_mem_cons.2 ⟨by decide, List.forall_mem_singleton.2 (by decide)⟩⟩
  have word := isReadable_of_isWordSpelling spelling (by decide)
  have name : (Token.name "x").IsNameOrMark := Token.isNameOrMark_name (by decide)
  have colon : (Token.mark .colon).IsNameOrMark := Token.isNameOrMark_mark rfl
  obtain ⟨cs, spells, line⟩ : ∃ cs,
      SpellsBehind (.mark .kwVar) cs (.name "x" :: .mark .colon :: first :: rest) ∧
        (declared s.text).toList = (Token.mark .kwVar).lexeme.toList ++ cs ++ ['\n'] := by
    refine ⟨_, .cons name.isReadable .blank
      (.cons colon.isReadable (.none (name.meets colon (.inr rfl)))
        (.cons (compact.words first List.mem_cons_self).isReadable .blank
          compact.spellsBehind)), ?_⟩
    rw [declared, String.toList_append, String.toList_append, ← text]
    simp [letters, Token.mark, Token.name, TokenKind.describe]
  have closed : openBrackets (.mark .kwVar :: .name "x" :: .mark .colon :: first :: rest) = 0 :=
    compact.closed 0
  obtain ⟨faces, faults⟩ := facesOf_line word spells closed line
  refine ⟨faults, ?_⟩
  rw [tokens]
  exact faces.trans (by simp [Token.face, Token.mark, TokenKind.isLayout])

/-- Only a type has a structure that can be written. -/
theorem Node.kind_of_isWritten {n : Node} (written : n.typeShape.IsWritten) :
    n.kind = .variableType := by
  obtain ⟨id, span, form⟩ := n
  cases form with
  | typeRef => rfl
  | _ =>
    obtain ⟨⟨some, -⟩, -⟩ := written
    exact absurd rfl some

/-- A declaration that says the same as one without a value declares a variable of the same name and
    with a type of the same structure. -/
theorem Node.form_of_bare {n m type : Node} {name : Token} (same : n.bare = m.bare)
    (form : m.form = .variableDecl name (some type) none) : ∃ type',
      n.form = .variableDecl name (some type') none ∧ type'.typeShape = type.typeShape := by
  have forms := map_form_eq_of_bare_eq same
  rw [form] at forms
  obtain ⟨id, span, own⟩ := n
  cases own with
  | variableDecl name' type' value' =>
    obtain ⟨rfl, types, values⟩ := Form.variableDecl.inj forms
    obtain ⟨type', rfl, alike⟩ := Option.map_eq_some_iff.1 types
    obtain rfl := Option.map_eq_none_iff.1 values
    exact ⟨type', rfl, by rw [← typeShape_bare, alike, typeShape_bare]⟩
  | _ => cases forms

/-- The declaration is parsed as one of a variable whose type has the structure. -/
theorem parse_declared {s : TypeShape} (written : s.IsWritten) :
    (parse (lex (declared s.text)).tokens).diagnostics = [] ∧ ∃ declaration name type,
      (parse (lex (declared s.text)).tokens).program.form = .program [declaration] ∧
        declaration.form = .variableDecl name (some type) none ∧ name.lexeme = "x" ∧
        type.typeShape = s := by
  obtain ⟨-, same⟩ := lex_declared written
  obtain ⟨word, ts, split, kind, same⟩ := same.mark_inv
  obtain ⟨name, ts, rfl, named, spelt, same⟩ := same.name_inv
  obtain ⟨colon, ts, rfl, announces, same⟩ := same.mark_inv
  obtain ⟨us, vs, rfl, own, rest⟩ := same.append_inv
  obtain ⟨newline, vs, rfl, ends, rest⟩ := rest.mark_inv
  obtain ⟨eof, vs, rfl, stops, nothing⟩ := rest.mark_inv
  obtain rfl := nothing.nil_inv
  obtain ⟨type, writtenType, shape⟩ := written.isTypeOf us own
  have line : WritesAll (parts .declaration [⟨0, default, .variableDecl name (some type) none⟩])
      (word :: name :: colon :: (us ++ [newline])) :=
    .single <| .phrase (.variableDecl kind named (.some announces (.mk type)) .none ends)
      (.of_kind kind nofun (.of_kind named nofun (.of_kind announces nofun
        (.part writtenType (.of_kind ends nofun .nil)))))
  have tokens : (lex (declared s.text)).tokens =
      word :: name :: colon :: (us ++ [newline]) ++ [eof] := by
    rw [split]
    simp
  obtain ⟨faults, trees⟩ := parse_of_writes line stops
  rw [← tokens] at faults trees
  obtain ⟨id, span, body, tree, -⟩ := parse_conforms (lex (declared s.text)).tokens
  have bodies := Node.map_form_eq_of_bare_eq trees
  rw [tree] at bodies
  obtain ⟨declaration, rfl, alike⟩ := List.map_eq_singleton_iff.1 (Form.program.inj bodies)
  obtain ⟨type', form, shapes⟩ := Node.form_of_bare alike rfl
  exact ⟨faults, declaration, name, type', by rw [tree], form, spelt, shapes.trans shape⟩

/-- For every type in a tree that is parsed from a text, its text in signatures without generic
    parameters, put behind a variable of a declaration, is read without a report. What is read is
    that one declaration, and its type has the structure of the type: the names of its path, the
    number of its dimensions and, at every depth, its arguments. So two types have one text just if
    they have one structure. -/
theorem type_read_back (source : String) {t : Node}
    (below : t ∈ (parse (lex source).tokens).program.descendants) (kind : t.kind = .variableType) :
    let again := lex ("var x: " ++ Signature.typeText [] t ++ "\n")
    again.diagnostics = [] ∧ (parse again.tokens).diagnostics = [] ∧
      (∃ declaration name type, (parse again.tokens).program.form = .program [declaration] ∧
        declaration.kind = .emptyVariableDecl ∧
        declaration.form = .variableDecl name (some type) none ∧ name.lexeme = "x" ∧
        type.kind = .variableType ∧ type.typeShape = t.typeShape) ∧
      ∀ source' u, u ∈ (parse (lex source').tokens).program.descendants → u.kind = .variableType →
        (Signature.typeText [] t = Signature.typeText [] u ↔ t.typeShape = u.typeShape) := by
  have written := isWritten_of_mem_parse source below kind
  have text {n : Node} (written : n.typeShape.IsWritten) :
      Signature.typeText [] n = n.typeShape.text := by
    rw [Signature.typeText_eq, written.placed_nil]
  rw [text written]
  obtain ⟨faults, declaration, name, type, tree, form, spelt, shape⟩ := parse_declared written
  refine ⟨(lex_declared written).1, faults, ⟨declaration, name, type, tree, ?_, form, spelt, ?_,
    shape⟩, ?_⟩
  · rw [Node.kind, form]
    rfl
  · exact Node.kind_of_isWritten (shape ▸ written)
  · intro source' u below' kind'
    have written' := isWritten_of_mem_parse source' below' kind'
    rw [text written']
    refine ⟨fun same => ?_, congrArg _⟩
    -- One text cannot be parsed in two ways.
    obtain ⟨-, declaration', name', type', tree', form', -, shape'⟩ := parse_declared written'
    rw [← same, tree] at tree'
    cases tree'
    rw [form] at form'
    cases form'
    exact shape.symm.trans shape'

/-- A path with arguments that have arguments, in a list with a comma behind its last one. -/
theorem type_read_back_nested :
    let source := "var a: m.A<T, U<V>,>[][]\n"
    ∃ t ∈ (parse (lex source).tokens).program.descendants, t.kind = .variableType ∧
      Signature.typeText [] t = "m.A<T,U<V>>[][]" ∧
      ∃ declaration name type,
        (parse (lex ("var x: " ++ Signature.typeText [] t ++ "\n")).tokens).program.form =
            .program [declaration] ∧
          declaration.form = .variableDecl name (some type) none ∧
          type.typeShape = ⟨.path ["m", "A"],
            [⟨.path ["T"], [], 0⟩, ⟨.path ["U"], [⟨.path ["V"], [], 0⟩], 0⟩], 2⟩ := by
  intro source
  have test : (parse (lex source).tokens).program.descendants.any (fun t =>
      decide (t.kind = .variableType ∧ Signature.typeText [] t = "m.A<T,U<V>>[][]" ∧
        t.typeShape = ⟨.path ["m", "A"],
          [⟨.path ["T"], [], 0⟩, ⟨.path ["U"], [⟨.path ["V"], [], 0⟩], 0⟩], 2⟩)) = true := by
    decide +kernel
  obtain ⟨t, below, test⟩ := List.any_eq_true.1 test
  obtain ⟨kind, text, shape⟩ := of_decide_eq_true test
  obtain ⟨-, -, ⟨declaration, name, type, tree, -, form, -, -, same⟩, -⟩ :=
    type_read_back source below kind
  exact ⟨t, below, kind, text, declaration, name, type, tree, form, same.trans shape⟩

end TekLang
