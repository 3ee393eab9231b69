import TekLang.Proofs.Grammar.Conservation

/-!
# The end of input

Tokens are read up to the first end of input. All tokens behind it are on the tape too, but nothing
that is read or looked at ahead is one of them (`Tape.simulation`), so that they make no difference.
Where no end of input is given one is made up at the end of the last token. That an end of input may
be spelt differently makes no difference either: it stands in no tree and no fault quotes it.
-/

namespace TekLang

/-! ### The spelling of an end of input -/

/-- A form is kept by what keeps its tokens. -/
theorem Form.mapTokens_eq_self {α : Type} {f : Token → Token} {form : Form α}
    (same : ∀ t ∈ form.tokens, f t = t) : form.mapTokens f = form := by
  have list {ts : List Token} (within : ∀ t ∈ ts, f t = t) : ts.map f = ts :=
    (List.map_congr_left within).trans (List.map_id ts)
  have option {t? : Option Token} (within : ∀ t ∈ t?.toList, f t = t) : t?.map f = t? := by
    cases t? with
    | none => rfl
    | some t => rw [Option.map_some, within t List.mem_cons_self]
  cases form with
  | importDecl path rename exposed =>
    obtain ⟨path_eq, rename_eq⟩ := List.forall_mem_append.1 same
    rw [mapTokens, list path_eq, option rename_eq]
  | importedName name rename =>
    obtain ⟨name_eq, rename_eq⟩ := List.forall_mem_cons.1 same
    rw [mapTokens, name_eq, option rename_eq]
  | typeRef path generics depth => exact congrArg (typeRef · generics depth) (list same)
  | _ => simp_all [mapTokens, tokens]

theorem Form.map_eq_self {α : Type} {f : α → α} {form : Form α}
    (same : ∀ a ∈ form.parts, f a = a) : form.map f = form := by
  have congr : form.map f = form.map id := Form.map_congr same
  rw [congr]
  cases form <;> simp [map]

/-- An end of input that is not spelt. -/
def Translation.unspelt : Translation where
  lexeme t := if t.kind = .eof then "" else t.lexeme
  number n := n
  lexeme_of_reserved t reserved := by
    have word : t.kind ≠ .eof := by
      rw [reserved]
      exact TokenKind.noConfusion
    exact if_neg word
  number_succ _ := rfl

theorem Token.translated_unspelt {t : Token} (word : t.kind ≠ .eof) :
    translated .unspelt t = t := by
  obtain ⟨kind, lexeme, span⟩ := t
  exact congrArg (Token.mk kind · span) (if_neg word)

theorem map_translated_unspelt {ts : List Token} (plain : ∀ t ∈ ts, t.kind ≠ .eof) :
    translated .unspelt ts = ts :=
  (List.map_congr_left fun t there => Token.translated_unspelt (plain t there)).trans
    (List.map_id _)

/-- A tree that holds no end of input. -/
theorem Node.translated_unspelt {n : Node} (plain : ∀ t ∈ n.tokens, t.kind ≠ .eof) :
    translated .unspelt n = n := by
  induction n using induction_on_children with
  | step n ih =>
    rw [tokens_eq] at plain
    obtain ⟨own, below⟩ := List.forall_mem_append.1 plain
    have children : ∀ child ∈ n.children, translated .unspelt child = child := by
      intro child there
      refine ih child there fun t among => below t ?_
      exact List.mem_flatMap.2 ⟨child, there, among⟩
    obtain ⟨id, span, form⟩ := n
    have tokens : form.mapTokens (Translation.token .unspelt) = form :=
      Form.mapTokens_eq_self fun t there => Token.translated_unspelt (own t there)
    have parts : form.map (translated .unspelt) = form :=
      Form.map_eq_self fun part there => children part (mem_children.2 there)
    rw [translated_mk]
    change Node.mk id span
      ((form.mapTokens (Translation.token .unspelt)).map (translated .unspelt)) = _
    rw [tokens, parts]

/-- Reading up to an end of input that is spelt somehow gives what reading up to one that is not
    spelt gives. -/
theorem topLevel_unspelt {ts : List Token} (plain : ∀ t ∈ ts, t.kind ≠ .eof) {e : Token}
    (ends : e.kind = .eof) :
    topLevel ts ⟨ts, .silent .eof e.span, .silent .eof e.span, 0⟩ = topLevel ts ⟨ts, e, e, 0⟩ := by
  have silent : translated .unspelt e = .silent .eof e.span := by
    obtain ⟨kind, lexeme, span⟩ := e
    obtain rfl : kind = .eof := ends
    rfl
  have read := topLevel_translated (τ := .unspelt) ⟨ts, e, e, 0⟩
  rw [map_translated_unspelt plain] at read
  have cursor : translated .unspelt (⟨ts, e, e, 0⟩ : Cursor) =
      ⟨ts, .silent .eof e.span, .silent .eof e.span, 0⟩ := by
    change Cursor.mk (translated .unspelt ts) (translated .unspelt e) (translated .unspelt e) 0 = _
    rw [map_translated_unspelt plain, silent]
  have reads := topLevel_reads ts (c := ⟨ts, e, e, 0⟩) (Nat.le_refl _)
  have body : translated .unspelt (topLevel ts ⟨ts, e, e, 0⟩).body =
      (topLevel ts ⟨ts, e, e, 0⟩).body := by
    refine (List.map_congr_left fun n there => Node.translated_unspelt ?_).trans (List.map_id _)
    intro t among
    refine plain t (reads.subperm.subset (List.mem_flatMap.2 ⟨n, there, ?_⟩))
    exact n.reading_perm_tokens.mem_iff.2 among
  rw [cursor] at read
  rw [read]
  change TopLevel.mk (translated .unspelt (topLevel ts ⟨ts, e, e, 0⟩).body) _ _ = _
  rw [body]
  rfl

/-! ### Programs -/

/-- The parser looks at nothing behind the first end of input and comes to a stop there, and reads
    tokens without an end of input as those with one at the end of the last of them. -/
theorem parse_endOfInput (ts : List Token) (plain : ∀ t ∈ ts, t.kind ≠ .eof) :
    (∀ e rest, e.kind = .eof → parse (ts ++ e :: rest) = parse (ts ++ [e]) ∧
      (TokenStream.readProgram (Tape.ofTokens (ts ++ e :: rest))).2.current = ts.length) ∧
    ∀ e, e.kind = .eof →
      e.span = .point ((ts.getLast?.map (·.span.stop)).getD .origin) →
      parse ts = parse (ts ++ [e]) := by
  refine ⟨?_, ?_⟩
  · intro e rest ends
    have reads := Cursor.ofTokens_append plain ends
    constructor
    · rw [parse_eq, parse_eq, reads rest, reads []]
    · rw [Tape.current_readProgram, reads rest]
  · intro e ends place
    have made : endOfInput ts = .silent .eof e.span := by rw [endOfInput, place]
    have start : (ts.headD (.silent .eof e.span)).span = (ts.headD e).span := by cases ts <;> rfl
    rw [parse_eq, parse_eq, Cursor.ofTokens_append plain ends, Cursor.ofTokens_of_words plain, made]
    dsimp only [Cursor.upcoming]
    rw [topLevel_unspelt plain ends, start]
    rfl

/-- A comparison that would be a call if what stands behind the end of input were read. -/
theorem parse_endOfInput_comparison :
    let word (kind : TokenKind) (lexeme : String) (column : Nat) : Token :=
      ⟨kind, lexeme, ⟨⟨0, column⟩, ⟨0, column + 1⟩⟩⟩
    let ts := [word .identifier "f" 0, word .less "<" 1, word .identifier "a" 2]
    let stop := Token.silent .eof (.point ⟨0, 3⟩)
    (∀ t ∈ ts, t.kind ≠ .eof) ∧
      parse (ts ++ [stop, word .greater ">" 3, word .leftParen "(" 4]) = parse (ts ++ [stop]) ∧
      parse ts = parse (ts ++ [stop]) := by
  intro word ts stop
  have plain : ∀ t ∈ ts, t.kind ≠ .eof := by decide
  obtain ⟨cut, made⟩ := parse_endOfInput ts plain
  exact ⟨plain, (cut stop _ rfl).1, made stop rfl rfl⟩

end TekLang
