import TekLang.Proofs.Grammar.Composition
import TekLang.Proofs.Grammar.Derivation
import TekLang.Proofs.Grammar.EchoExpression

/-!
# Reading statements in front of more tokens

A construct that ends with a block is over behind it, and so is a statement that ends with a line.
What is left is a statement that ends with the block of an if that has a value: operators are looked
for behind the block, and the statement is read again only if the tokens behind begin with none.
-/

namespace TekLang

open Placed (anywhere)

/-- The tokens behind cannot go on with a statement that was read up to a cursor. -/
def Node.IsOver (more : List Token) (n : Node) (c : Cursor) : Prop :=
  c.Open more ∨ ¬n.EndsInConditional

/-- What stops behind a word, or is over, has more tokens in front of it. -/
theorem Node.StopsAt.isOpen {more : List Token} {n : Node} {c c' : Cursor} (stops : n.StopsAt c)
    (closed : c.Closed) (suffix : c'.rest <:+ c.rest) (settled : n.IsOver more c') :
    c.Open more := by
  rcases settled with opened | other
  · exact opened.of_suffix suffix
  · refine Cursor.open_of_rest_ne_nil (closed.rest_ne_nil ?_)
    cases layout : c.last.kind.isLayout with
    | true => exact absurd (stops layout).2 other
    | false => rfl

namespace Parser

variable {α β : Type} [Placed α] [Placed β] {more : List Token} {Before : Cursor → Prop}

/-- What is read up to a word is read again, whatever comes then. -/
theorem Echoed.behindWord {Permitted : β → Cursor → Prop} {p q : Parser α} {f g : α → Parser β}
    (first : Echoed more Before (fun _ => BehindWord) p q)
    (second : ∀ a a', anywhere a' = anywhere a → Repeats more BehindWord Permitted (f a) (g a')) :
    Repeats more Before Permitted (p >>= f) (q >>= g) :=
  first.before (fun _ _ _ _ word closed _ _ => word.isOpen closed) second

/-- What is read again whatever stands behind it leaves the rest to be read again. -/
theorem Repeats.andThen {Permitted : β → Cursor → Prop} {p q : Parser α} {f g : α → Parser β}
    (first : Repeats more Before (fun _ _ => True) p q) (forward : Forward p)
    (second : ∀ a a', anywhere a' = anywhere a →
      Repeats more (fun _ => True) Permitted (f a) (g a')) :
    Repeats more Before Permitted (p >>= f) (q >>= g) := by
  have anything : Ensures Before p fun _ _ => True := fun _ _ _ _ _ => trivial
  exact first.bind forward anything (fun _ _ _ _ _ _ _ _ => trivial) second

/-- A reader that repeats whatever stands behind is echoed. -/
theorem Repeats.echoed {p q : Parser α} (repeats : Repeats more Before (fun _ _ => True) p q)
    (forward : Forward p) : Echoed more Before (fun _ _ => True) p q :=
  ⟨forward, fun _ _ _ _ _ => trivial, repeats.weaken (fun _ => id) fun _ _ _ => trivial⟩

namespace Repeats

theorem pure {Permitted : α → Cursor → Prop} {a b : α} (same : anywhere b = anywhere a) :
    Repeats more Before Permitted (Pure.pure a) (Pure.pure b) := by
  rintro c d _ _ heads _ ⟨⟩ _
  exact ⟨b, d, rfl, same, heads⟩

/-- Where the cursor is only asked for what is of no account. -/
theorem get {Permitted : α → Cursor → Prop} {f g : Cursor → Parser α}
    (second : ∀ c d, Repeats more Before Permitted (f c) (g d)) :
    Repeats more Before Permitted (MonadState.get >>= f) (MonadState.get >>= g) :=
  fun c d => second c d c d

end Repeats

/-- Where the tokens behind cannot begin with a mark, what it announces is read again. -/
theorem repeats_optional (follows : MayFollow more) {mark : TokenKind} (word : mark ≠ .eof)
    (other : mark.onlyBegins = false) (apart : mark.beginsOrJoins = false)
    {item item' : Parser α} (repeats : Repeats more (fun _ => True) (fun _ _ => True) item item')
    (forward : Forward item) :
    Repeats more Before (fun _ _ => True) (optional mark item) (optional mark item') := by
  have announced : Repeats more Before (fun _ _ => True) (accept mark) (accept mark) := by
    intro c d b c' heads _ run _
    by_cases marked : c.nextKind = mark
    · have some : c.rest ≠ [] := by
        intro ended
        exact word (marked.symm.trans (Cursor.nextKind_of_rest_nil ended))
      obtain ⟨t, rest, here⟩ := List.exists_cons_of_ne_nil some
      obtain ⟨u, others, there, face, heads'⟩ := heads.ahead here
      have same := (Cursor.nextKind_of_rest_cons here).symm.trans marked
      rw [accept_of_kind here same] at run
      cases run
      exact ⟨true, _, accept_of_kind there ((Token.kind_eq_of_unplaced face).trans same), rfl,
        heads'⟩
    · have unmarked : d.nextKind ≠ mark := by
        by_cases ended : c.rest = []
        · rw [heads.nextKind_atEnd ended]
          exact follows.ne_of_not_joins word other apart
        · rw [heads.nextKind ended]
          exact marked
      rw [accept_of_ne marked] at run
      cases run
      exact ⟨false, d, accept_of_ne unmarked, rfl, heads⟩
  refine announced.andThen (.accept mark) ?_
  rintro b _ rfl
  refine .ite (fun _ => repeats.andThen forward ?_) fun _ => .pure rfl
  intro a a' same
  exact .pure (congrArg some same)

/-- A token that is asked for is there. -/
theorem rest_ne_nil_of_expectAs {kind : TokenKind} (word : kind ≠ .eof) {wanted : Wanted}
    {setting : Setting} {c c' : Cursor} {t : Token}
    (run : expectAs kind wanted setting c = .ok t c') : c.rest ≠ [] := by
  obtain ⟨items, ⟨same⟩, reads⟩ := expectAs_follows word _ _ _ _ _ run
  exact reads.rest_ne_nil

section Endings

variable (follows : MayFollow more) {start start' : Span} {landmark : Landmark}
include follows

/-- The end of a statement and of its line. -/
theorem ended_repeats {span span' : Span} {form form' : Form Node}
    {Permitted : Node → Cursor → Prop}
    (same : (form'.mapTokens Token.unplaced).map Node.unplaced =
      (form.mapTokens Token.unplaced).map Node.unplaced) :
    Repeats more BehindBlock Permitted (do endStatement landmark; node span form)
      (do endStatement landmark; node span' form') :=
  (repeats_endStatement follows landmark landmark).andThen (.endStatement landmark)
    fun _ _ _ => .node same

theorem closed_repeats {form form' : Form Node} {Permitted : Node → Cursor → Prop}
    (same : (form'.mapTokens Token.unplaced).map Node.unplaced =
      (form.mapTokens Token.unplaced).map Node.unplaced) :
    Repeats more BehindBlock Permitted
      (do
        let span ← spanFrom start
        endStatement landmark
        node span form)
      (do
        let span ← spanFrom start'
        endStatement landmark
        node span form') :=
  .spanFrom fun _ _ => ended_repeats follows same

/-- A statement that ends with what `p` reads. -/
theorem closing_repeats {p q : Parser α} {form form' : α → Form Node}
    (value : Echoed more Before (fun a c => ∀ id span, Node.StopsAt ⟨id, span, form a⟩ c) p q)
    (same : ∀ a a', anywhere a' = anywhere a →
      ((form' a').mapTokens Token.unplaced).map Node.unplaced =
        ((form a).mapTokens Token.unplaced).map Node.unplaced) :
    Repeats more Before (Node.IsOver more)
      (do
        let a ← p
        let span ← spanFrom start
        endStatement landmark
        node span (form a))
      (do
        let a ← q
        let span ← spanFrom start'
        endStatement landmark
        node span (form' a)) := by
  refine value.before ?_ ?_
  · intro a c n c' stops closed run settled
    have suffix := ((Forward.statement start landmark (form a)).ok run).rest_suffix
    obtain ⟨span, c₁, -, run₁⟩ := bind_eq_ok.1 run
    obtain ⟨_, c₂, -, done⟩ := bind_eq_ok.1 run₁
    cases done
    exact (stops _ _).isOpen closed suffix settled
  · intro a a' alike
    refine (closed_repeats follows (same a a' alike)).weaken ?_ fun _ _ => id
    intro c stops layout
    exact (stops 0 default layout).1

/-- A construct that ends with the block behind what `p` reads. -/
theorem indented_repeats {inner inner' : Construct → Parser Node}
    (echoes : EchoesGrammar more inner inner') {After : α → Cursor → Prop} {p q : Parser α}
    {Permitted : Node → Cursor → Prop} (header : Echoed more Before After p q)
    {form form' : α → List Node → Form Node}
    (same : ∀ a a' ns ns', anywhere a' = anywhere a → anywhere ns' = anywhere ns →
      ((form' a' ns').mapTokens Token.unplaced).map Node.unplaced =
        ((form a ns).mapTokens Token.unplaced).map Node.unplaced) :
    Repeats more Before Permitted
      (do
        let a ← p
        let body ← block (inner .declaration) landmark
        node (← spanFrom start) (form a body))
      (do
        let a ← q
        let body ← block (inner' .declaration) landmark
        node (← spanFrom start') (form' a body)) := by
  refine header.before ?_ ?_
  · intro a c n c' _ _ run _
    obtain ⟨body, c₁, found, -⟩ := bind_eq_ok.1 run
    exact Cursor.open_of_rest_ne_nil (rest_ne_nil_of_block echoes.grammar.declaration found)
  · intro a a' alike
    refine (repeats_block follows echoes.grammar.declaration echoes.declaration landmark).andThen
      (.block (echoes.forward _) _) ?_
    intro body body' alike'
    exact .spanned (same a a' body body' alike alike')

end Endings

/-! ## What the readers ask -/

/-- The first kind behind line ends. -/
def kindBehindLines (kinds : List TokenKind) : Option TokenKind :=
  (kinds.dropWhile (· = .newline)).head?

theorem startsBlock_eq (c : Cursor) : c.startsBlock =
    decide (c.nextKind = .newline ∧ kindBehindLines (c.rest.map (·.kind)) = some .indent) := by
  unfold Cursor.startsBlock kindBehindLines
  rw [List.dropWhile_map, List.head?_map]
  rfl

/-- Behind the line ends that end a text no block begins. -/
theorem kindBehindLines_ne_indent (follows : MayFollow more) :
    kindBehindLines (more.map (·.kind)) ≠ some .indent := by
  cases more with
  | nil => exact nofun
  | cons t more =>
    have line : t.kind ≠ .newline := follows.ne_of_not_joins (by decide) rfl rfl
    have indent : t.kind ≠ .indent := follows.ne_of_not_joins (by decide) rfl rfl
    simp [kindBehindLines, line, indent]

/-- Whether a block begins does not depend on what stands behind the text. -/
theorem startsBlock_heads (follows : MayFollow more) {c d : Cursor} (heads : c.Heads more d)
    (word : BehindWord c) : d.startsBlock = c.startsBlock := by
  have some := heads.closed.rest_ne_nil word
  have behind : kindBehindLines (d.rest.map (·.kind)) = .some .indent ↔
      kindBehindLines (c.rest.map (·.kind)) = .some .indent := by
    rw [heads.kinds, List.map_append]
    unfold kindBehindLines
    rw [List.dropWhile_append]
    cases lines : (c.rest.map (·.kind)).dropWhile (· = .newline) with
    | nil => exact iff_of_false (kindBehindLines_ne_indent follows) nofun
    | cons => rfl
  rw [startsBlock_eq, startsBlock_eq, heads.nextKind some]
  simp only [behind]

theorem startsConstructor_heads {c d : Cursor} (heads : c.Heads more d) (some : c.rest ≠ []) :
    startsConstructor d.rest = startsConstructor c.rest := by
  obtain ⟨t, rest, here⟩ := List.exists_cons_of_ne_nil some
  obtain ⟨u, others, there, face, heads₁⟩ := heads.ahead here
  have same := Token.kind_eq_of_unplaced face
  cases rest with
  | nil =>
    have layout := heads₁.closed.isLayout_last rfl
    have other : t.kind ≠ .kwNew := by
      intro new
      change t.kind.isLayout = true at layout
      rw [new] at layout
      cases layout
    rw [here, there]
    cases others with
    | nil => rfl
    | cons => simp [startsConstructor, same, other]
  | cons v rest =>
    obtain ⟨w, others', there', face', -⟩ := heads₁.ahead rfl
    obtain rfl : others = w :: others' := there'
    rw [here, there]
    simp only [startsConstructor, same, Token.kind_eq_of_unplaced face']

theorem Section.ofMember_unplaced (n : Node) :
    Section.ofMember n.unplaced = Section.ofMember n := by
  obtain ⟨id, span, form⟩ := n
  rw [Node.unplaced_mk]
  cases form with
  | classMember isStatic => cases isStatic <;> rfl
  | _ => rfl

/-- Members that are the same as far as `f` can tell belong to the same parts of a class, if `f` can
    tell where they belong. -/
theorem sections_map {f : Node → Node} (kept : ∀ n, Section.ofMember (f n) = Section.ofMember n)
    {ms ns : List Node} (same : ms.map f = ns.map f) (part : Section) :
    (ms.filter (Section.ofMember · = part)).map f =
      (ns.filter (Section.ofMember · = part)).map f := by
  have moved (ns : List Node) : (ns.filter (Section.ofMember · = part)).map f =
      (ns.map f).filter (Section.ofMember · = part) := by
    rw [List.filter_map]
    simp only [Function.comp_def, kept]
  rw [moved, moved, same]

section Statements

variable (follows : MayFollow more) {inner inner' : Construct → Parser Node}
  (echoes : EchoesGrammar more inner inner') {start start' : Span}
include follows echoes

theorem variableDecl_repeats : Repeats more Before (Node.IsOver more) (variableDecl inner start)
    (variableDecl inner' start') := by
  refine (typedName_echoed follows _).behindWord ?_
  rintro ⟨name, type⟩ ⟨name', type'⟩ sameName
  have value : Echoed more BehindWord
      (fun value c => ∀ id span, Node.StopsAt ⟨id, span, .variableDecl name type value⟩ c)
      (optional .equal (expression inner)) (optional .equal (expression inner')) := by
    refine .optional follows (by decide) rfl ?_ fun _ word _ _ => word.stopsAt _
    exact echoes.expression.weaken (fun _ => id) fun _ _ stops _ _ => stops.last rfl
  refine closing_repeats follows value ?_
  intro value value' sameValue
  simp_all [anywhere, Form.mapTokens, Form.map]

theorem functionDecl_repeats {Permitted : Node → Cursor → Prop} :
    Repeats more Before Permitted (functionDecl inner start) (functionDecl inner' start') := by
  refine (expectName_echoed _).behindWord ?_
  intro name name' sameName
  refine (genericParameters_echoed follows).behindWord ?_
  intro generics generics' sameGenerics
  refine (expect_echoed rfl _).behindWord ?_
  intro _ _ _
  refine (parameters_echoed follows).behindWord ?_
  intro params params' sameParams
  refine (optional_echoed follows (by decide) rfl (typeRef_echoed follows)).behindWord ?_
  intro result result' sameResult
  refine .getIf (fun _ _ => startsBlock_heads follows) ?_ ?_
  · refine (repeats_block follows echoes.grammar.declaration echoes.declaration _).andThen
      (.block (echoes.forward _) _) ?_
    intro body body' sameBody
    refine .spanned ?_
    simp_all [anywhere, Form.mapTokens, Form.map]
  · refine (closed_repeats follows ?_).weaken (fun _ holds => holds.1.behindBlock) fun _ _ => id
    simp_all [anywhere, Form.mapTokens, Form.map]

theorem constructor_repeats {Permitted : Node → Cursor → Prop} :
    Repeats more Before Permitted (constructor inner start) (constructor inner' start') := by
  refine (expect_echoed rfl _).behindWord ?_
  intro _ _ _
  refine (parameters_echoed follows).behindWord ?_
  intro params params' sameParams
  refine .getIf (fun _ _ => startsBlock_heads follows) ?_ ?_
  · refine (repeats_block follows echoes.grammar.declaration echoes.declaration _).andThen
      (.block (echoes.forward _) _) ?_
    intro body body' sameBody
    refine .spanned ?_
    simp_all [anywhere, Form.mapTokens, Form.map]
  · refine ((repeats_endStatement follows _ _).andThen (.endStatement _) fun _ _ _ => ?_).weaken
      (fun _ holds => holds.1.behindBlock) fun _ _ => id
    rw [pure_bind, pure_bind]
    refine .spanned ?_
    simp_all [anywhere, Form.mapTokens, Form.map]

theorem classMember_echoed : Echoed more (fun c => c.rest ≠ []) (fun _ _ => True)
    (classMember inner) (classMember inner') := by
  refine .getIf (fun _ _ => startsConstructor_heads) ?_ ?_
  · have begun : Echoed more (fun c => c.rest ≠ [] ∧ startsConstructor c.rest = true)
        (fun t c => c.last = t) advance advance :=
      Echoed.advance_some.weaken (fun _ holds => holds.1) fun _ _ => id
    refine begun.bind fun _ _ _ => ?_
    exact (constructor_repeats follows echoes).echoed (.of_composed (.constructor _) echoes.forward)
  · refine .upcoming fun _ _ => ?_
    have static : Echoed more (fun c => c.rest ≠ [] ∧ startsConstructor c.rest = false)
        (fun _ _ => True) (accept .kwStatic) (accept .kwStatic) :=
      (Echoed.accept follows (by decide) rfl).forget
    refine static.bind ?_
    rintro isStatic _ rfl
    refine echoes.declaration.bind ?_
    intro value value' sameValue
    refine .node ?_ fun _ _ => trivial
    simp_all [anywhere, Form.mapTokens, Form.map]

theorem classDecl_repeats {Permitted : Node → Cursor → Prop} :
    Repeats more Before Permitted (classDecl inner start) (classDecl inner' start') := by
  refine (expectName_echoed _).behindWord ?_
  intro name name' sameName
  refine (genericParameters_echoed follows).behindWord ?_
  intro generics generics' sameGenerics
  have listed : Echoed more (fun c => c.last.kind = .kwExtends) (fun _ => BehindWord)
      (do
        let first ← typeRef
        let others ← eachAfter .comma typeRef
        return first :: others)
      (do
        let first ← typeRef
        let others ← eachAfter .comma typeRef
        return first :: others) := by
    refine (typeRef_echoed follows).bind ?_
    intro first first' sameFirst
    refine (Echoed.eachAfter (typeRef_echoed follows) follows (by decide) rfl).bind ?_
    intro others others' sameOthers
    exact .pure (List.cons_eq_cons.2 ⟨sameFirst, sameOthers⟩) fun _ => id
  have extended : Echoed more BehindWord (fun _ => BehindWord) (optionalList .kwExtends _)
      (optionalList .kwExtends _) :=
    .optionalList follows (by decide) rfl listed fun _ => id
  refine extended.behindWord ?_
  intro bases bases' sameBases
  have made {ns ns' : List Node} (sameMembers : ns'.map Node.unplaced = ns.map Node.unplaced) :
      ((Form.classDecl name' generics' bases'
        (ns'.filter (Section.ofMember · = .constructors))
        (ns'.filter (Section.ofMember · = .statics))
        (ns'.filter (Section.ofMember · = .instances))).mapTokens Token.unplaced).map
          Node.unplaced =
      ((Form.classDecl name generics bases (ns.filter (Section.ofMember · = .constructors))
        (ns.filter (Section.ofMember · = .statics))
        (ns.filter (Section.ofMember · = .instances))).mapTokens Token.unplaced).map
          Node.unplaced := by
    have parts := sections_map Section.ofMember_unplaced sameMembers
    simp_all [anywhere, Form.mapTokens, Form.map]
  refine .getIf (fun _ _ => startsBlock_heads follows) ?_ ?_
  · have grammar := unlessAtEnd_follows (classMember_follows echoes.grammar) .endOfClass
    have item : Echoed more (fun _ => True) (fun _ _ => True)
        (unlessAtEnd .endOfClass (classMember inner))
        (unlessAtEnd .endOfClass (classMember inner')) :=
      .unlessAtEnd ((classMember_echoed follows echoes).weaken (fun _ holds => holds.2)
        fun _ _ => id) _
    refine (Echoed.openBlock follows _).before ?_ fun _ _ _ => ?_
    · intro _ c n c' _ _ run _
      obtain ⟨ns, c₁, found, -⟩ := bind_eq_ok.1 run
      exact Cursor.open_of_rest_ne_nil (rest_ne_nil_of_itemsUntil (by decide) grammar found)
    · refine (repeats_sequence (by decide) grammar item).andThen (.sequence item.forward _) ?_
      intro ns ns' sameMembers
      exact .spanned (made sameMembers)
  · refine ((repeats_endStatement follows _ _).andThen (.endStatement _) fun _ _ _ => ?_).weaken
      (fun _ holds => holds.1.behindBlock) fun _ _ => id
    rw [pure_bind, pure_bind]
    exact .spanned (@made [] [] rfl)

omit echoes in
theorem rename_echoed : Echoed more BehindWord (fun _ => BehindWord) rename rename :=
  optional_echoed follows (by decide) rfl (expectName_echoed _)

omit echoes in
theorem importedName_echoed :
    Echoed more Before (fun _ => BehindWord) importedName importedName := by
  refine (expectName_echoed _).bind ?_
  intro name name' sameName
  refine (rename_echoed follows).bind ?_
  intro newName newName' sameNew
  refine .spanned ?_ fun _ _ => id
  simp_all [anywhere, Form.mapTokens, Form.map]

omit echoes in
theorem importDecl_repeats :
    Repeats more Before (Node.IsOver more) (importDecl start) (importDecl start') := by
  refine (expectName_echoed _).behindWord ?_
  intro first first' sameFirst
  refine (Echoed.eachAfter (expectName_echoed _) follows (by decide) rfl).behindWord ?_
  intro others others' sameOthers
  refine (rename_echoed follows).behindWord ?_
  intro newName newName' sameNew
  have asked : newName'.isNone = newName.isNone := by
    have alike := congrArg Option.isNone sameNew
    simpa [anywhere] using alike
  rw [asked]
  refine .ite (fun _ => ?_) fun _ => ?_
  · have listed : Echoed more (fun c => c.last.kind = .leftParen) (fun _ => BehindWord)
        (commaSequence .rightParen .inImportList importedName)
        (commaSequence .rightParen .inImportList importedName) :=
      (Echoed.commaSequence (by decide) importedName_follows (importedName_echoed follows).forget
        _).weaken (fun _ => id) fun _ _ last => .of_kind last rfl
    have exposed : Echoed more BehindWord (fun exposed c => ∀ id span,
        Node.StopsAt ⟨id, span, .importDecl (first :: others) newName exposed⟩ c)
        (optionalList .leftParen (commaSequence .rightParen .inImportList importedName))
        (optionalList .leftParen (commaSequence .rightParen .inImportList importedName)) :=
      .optionalList follows (by decide) rfl
        (listed.weaken (fun _ => id) fun _ _ word _ _ => word.stopsAt _)
        fun _ word _ _ => word.stopsAt _
    refine closing_repeats follows exposed ?_
    intro exposed exposed' sameExposed
    simp_all [anywhere, Form.mapTokens, Form.map]
  · rw [pure_bind, pure_bind]
    refine (closed_repeats follows ?_).weaken (fun _ word => word.behindBlock) fun _ _ => id
    simp_all [anywhere, Form.mapTokens, Form.map]

theorem forEach_repeats {Permitted : Node → Cursor → Prop} :
    Repeats more Before Permitted (forEach inner start) (forEach inner' start') := by
  refine (typedName_echoed follows _).behindWord ?_
  rintro ⟨name, type⟩ ⟨name', type'⟩ sameName
  refine (expect_echoed rfl _).behindWord ?_
  intro _ _ _
  refine indented_repeats follows echoes echoes.expression ?_
  intro iterable iterable' body body' sameIterable sameBody
  simp_all [anywhere, Form.mapTokens, Form.map]

theorem whileLoop_repeats {Permitted : Node → Cursor → Prop} :
    Repeats more Before Permitted (whileLoop inner start) (whileLoop inner' start') := by
  refine indented_repeats follows echoes echoes.expression ?_
  intro condition condition' body body' sameCondition sameBody
  simp_all [anywhere, Form.mapTokens, Form.map]

theorem repeatTimes_repeats {Permitted : Node → Cursor → Prop} :
    Repeats more Before Permitted (repeatTimes inner start) (repeatTimes inner' start') := by
  refine echoes.expression.before ?_ ?_
  · intro _ c n c' _ _ run _
    obtain ⟨times, c₁, taken, -⟩ := bind_eq_ok.1 run
    exact Cursor.open_of_rest_ne_nil (rest_ne_nil_of_expectAs (by decide) taken)
  · intro amount amount' sameAmount
    refine indented_repeats follows echoes (expect_echoed rfl _) ?_
    intro _ _ body body' _ sameBody
    simp_all [anywhere, Form.mapTokens, Form.map]

theorem switchCase_repeats {Permitted : Node → Cursor → Prop} :
    Repeats more Before Permitted (switchCase inner) (switchCase inner') := by
  refine (expect_echoed rfl _).behindWord ?_
  intro _ _ _
  have listed : Echoed more (fun _ => True) (fun _ _ => True) (eachAfter .comma (expression inner))
      (eachAfter .comma (expression inner')) :=
    .eachAfter echoes.expression.forget follows (by decide) rfl
  refine echoes.expression.before ?_ ?_
  · intro _ c n c' _ _ run _
    obtain ⟨others, c₁, found, run₁⟩ := bind_eq_ok.1 run
    obtain ⟨body, c₂, found₁, -⟩ := bind_eq_ok.1 run₁
    have opened : c₁.Open more :=
      Cursor.open_of_rest_ne_nil (rest_ne_nil_of_block echoes.grammar.declaration found₁)
    exact opened.of_suffix (listed.forward.ok found).rest_suffix
  · intro first first' sameFirst
    refine indented_repeats follows echoes listed.always ?_
    intro others others' body body' sameOthers sameBody
    simp_all [anywhere, Form.mapTokens, Form.map]

theorem switch_repeats {Permitted : Node → Cursor → Prop} :
    Repeats more Before Permitted (switch inner start) (switch inner' start') := by
  have grammar := switchCase_follows echoes.grammar
  have item : Echoed more (fun _ => True) (fun _ _ => True) (switchCase inner)
      (switchCase inner') :=
    (switchCase_repeats follows echoes).echoed (.of_composed .switchCase echoes.forward)
  refine echoes.expression.before ?_ ?_
  · intro _ c n c' _ _ run _
    obtain ⟨_, c₁, opens, -⟩ := bind_eq_ok.1 run
    obtain ⟨line, c₂, taken, -⟩ := bind_eq_ok.1 opens
    exact Cursor.open_of_rest_ne_nil (rest_ne_nil_of_expectAs (by decide) taken)
  · intro subject subject' sameSubject
    refine (Echoed.openBlock follows _).before ?_ fun _ _ _ => ?_
    · intro _ c n c' _ _ run _
      obtain ⟨ns, c₁, found, -⟩ := bind_eq_ok.1 run
      exact Cursor.open_of_rest_ne_nil (rest_ne_nil_of_itemsUntil (by decide) grammar found)
    · refine (repeats_sequence (by decide) grammar item).andThen (.sequence item.forward _) ?_
      intro cases cases' sameCases
      refine .spanned ?_
      simp_all [anywhere, Form.mapTokens, Form.map]

theorem catchClause_repeats {Permitted : Node → Cursor → Prop} :
    Repeats more Before Permitted (catchClause inner) (catchClause inner') := by
  refine (expect_echoed rfl _).behindWord ?_
  intro _ _ _
  refine indented_repeats follows echoes (typedName_echoed follows _) ?_
  rintro ⟨name, type⟩ ⟨name', type'⟩ body body' sameName sameBody
  simp_all [anywhere, Form.mapTokens, Form.map]

theorem tryCatch_repeats {Permitted : Node → Cursor → Prop} :
    Repeats more Before Permitted (tryCatch inner start) (tryCatch inner' start') := by
  refine (repeats_block follows echoes.grammar.declaration echoes.declaration _).andThen
    (.block (echoes.forward _) _) ?_
  intro body body' sameBody
  have handled : Repeats more (fun _ => True) (fun _ _ => True) (catchClause inner)
      (catchClause inner') := catchClause_repeats follows echoes
  refine handled.andThen (.of_composed .catchClause echoes.forward) ?_
  intro handler handler' sameHandler
  refine .spanned ?_
  simp_all [anywhere, Form.mapTokens, Form.map]

theorem returnStmt_repeats : Repeats more BehindWord (Node.IsOver more) (returnStmt inner start)
    (returnStmt inner' start') := by
  refine .getIf ?_ ?_ ?_
  · intro c d heads word
    have next := heads.nextKind (heads.closed.rest_ne_nil word)
    rw [TokenStream.endsStatement_cursor, TokenStream.endsStatement_cursor, Cursor.endsStatement,
      Cursor.endsStatement, next, heads.last]
  · rw [pure_bind, pure_bind]
    exact (closed_repeats follows rfl).weaken (fun _ holds => holds.1.behindBlock) fun _ _ => id
  · simp only [pure_bind]
    have value : Echoed more (fun c => BehindWord c ∧ c.endsStatement = false)
        (fun value c => ∀ id span, Node.StopsAt ⟨id, span, .returnStmt (some value)⟩ c)
        (expression inner) (expression inner') :=
      echoes.expression.weaken (fun _ => id) fun _ _ stops _ _ => stops.last rfl
    refine closing_repeats follows value ?_
    intro value value' sameValue
    simp_all [anywhere, Form.mapTokens, Form.map]

theorem valueStmt_repeats {word : TokenKind} {form : Node → Form Node}
    (ends : ∀ value, (form value).lastOperand? = some value)
    (same : ∀ value value', value'.unplaced = value.unplaced →
      ((form value').mapTokens Token.unplaced).map Node.unplaced =
        ((form value).mapTokens Token.unplaced).map Node.unplaced) :
    Repeats more Before (Node.IsOver more) (valueStmt inner start word form)
      (valueStmt inner' start' word form) := by
  have value : Echoed more Before
      (fun value c => ∀ id span, Node.StopsAt ⟨id, span, form value⟩ c)
      (expression inner) (expression inner') :=
    echoes.expression.weaken (fun _ => id) fun value _ stops _ _ => stops.last (ends value)
  exact closing_repeats follows value same

omit echoes in
theorem jumpStmt_repeats {word : TokenKind} {jump : Jump} {Permitted : Node → Cursor → Prop} :
    Repeats more BehindWord Permitted (jumpStmt start word jump) (jumpStmt start' word jump) :=
  (ended_repeats follows rfl).weaken (fun _ word => word.behindBlock) fun _ _ => id

theorem expressionStmt_repeats :
    Repeats more Before (Node.IsOver more) (expressionStmt inner) (expressionStmt inner') := by
  refine (expressionWith_echoed follows echoes (by decide)).before ?_ ?_
  · intro value c n c' stops closed run settled
    obtain ⟨_, c₁, ends, done⟩ := bind_eq_ok.1 run
    cases done
    have suffix := ((Forward.endStatement .expression).ok ends).rest_suffix
    exact (stops.last rfl).isOpen closed suffix settled
  · intro value value' sameValue
    refine (ended_repeats follows ?_).weaken (fun _ stops layout => (stops layout).1) fun _ _ => id
    simp_all [anywhere, Form.mapTokens, Form.map]

theorem elseBranch_repeats {Permitted : Node → Cursor → Prop} :
    Repeats more Before Permitted (elseBranch inner .effect .declaration)
      (elseBranch inner' .effect .declaration) := by
  refine .get fun _ _ => .nextKind ?_ ?_
  · intro next
    refine .ite ?_ ?_
    · rintro rfl
      have nested : Repeats more (fun c => Before c ∧ c.rest ≠ [] ∧ c.nextKind = .kwIf)
          (fun n _ => ¬n.EndsInConditional) (inner .declaration) (inner' .declaration) :=
        echoes.statement.weaken (fun _ _ => trivial) fun _ _ => .inr
      have chained : Ensures (fun c => Before c ∧ c.rest ≠ [] ∧ c.nextKind = .kwIf)
          (inner .declaration) fun n _ => ¬n.EndsInConditional :=
        fun c n c' holds => echoes.chained c n c' holds.2.2
      refine nested.bind (echoes.forward _) chained (fun _ _ _ _ other _ _ _ => other) ?_
      intro branch branch' sameBranch
      refine .spanned ?_
      simp_all [anywhere, Form.mapTokens, Form.map]
    · intro _
      refine (repeats_block follows echoes.grammar.declaration echoes.declaration _).andThen
        (.block (echoes.forward _) _) ?_
      intro body body' sameBody
      refine .spanned ?_
      simp_all [anywhere, Form.mapTokens, Form.map]
  · intro c d n c' _ _ ended run
    rw [if_neg (by decide)] at run
    obtain ⟨body, c₁, found, -⟩ := bind_eq_ok.1 run
    exact absurd ended (rest_ne_nil_of_block echoes.grammar.declaration found)

/-- An if in the place of a statement. What follows its else is read as a statement, too. -/
theorem conditional_repeats {Permitted : Node → Cursor → Prop} :
    Repeats more Before Permitted (conditional inner .effect .declaration start)
      (conditional inner' .effect .declaration start') := by
  refine echoes.expression.before ?_ ?_
  · intro _ c n c' _ _ run _
    obtain ⟨body, c₁, found, -⟩ := bind_eq_ok.1 run
    exact Cursor.open_of_rest_ne_nil (rest_ne_nil_of_block echoes.grammar.declaration found)
  · intro condition condition' sameCondition
    refine (repeats_block follows echoes.grammar.declaration echoes.declaration _).andThen
      (.block (echoes.forward _) _) ?_
    intro body body' sameBody
    have branch : Repeats more (fun _ => True) (fun _ _ => True)
        (optional .kwElse (elseBranch inner .effect .declaration))
        (optional .kwElse (elseBranch inner' .effect .declaration)) :=
      repeats_optional follows (by decide) rfl rfl (elseBranch_repeats follows echoes)
        (.of_composed (.elseBranch _ _) echoes.forward)
    refine branch.andThen (.optional (.of_composed (.elseBranch _ _) echoes.forward) _) ?_
    intro otherwise otherwise' sameOtherwise
    refine .spanned ?_
    simp_all [anywhere, Form.mapTokens, Form.map]

omit follows echoes in
/-- A construct is known by the word that it begins with. -/
theorem announced_repeats {kind : TokenKind} (word : kind.isLayout = false)
    {Permitted : Node → Cursor → Prop} (construct construct' : Span → Parser Node)
    (repeats : ∀ start start', Repeats more BehindWord Permitted (construct start)
      (construct' start')) :
    Repeats more (fun c => True ∧ c.rest ≠ [] ∧ c.nextKind = kind) Permitted
      (do construct (← advance).span) (do construct' (← advance).span) := by
  have begun : Echoed more (fun c => True ∧ c.rest ≠ [] ∧ c.nextKind = kind) (fun _ => BehindWord)
      advance advance := by
    refine (Echoed.advance kind).weaken (fun _ holds => holds.2) ?_
    rintro t c ⟨same, last⟩
    exact .of_kind (last ▸ same) word
  exact begun.behindWord fun t t' _ => repeats t.span t'.span

theorem declarationWith_repeats : Repeats more (fun _ => True) (Node.IsOver more)
    (declarationWith inner) (declarationWith inner') := by
  refine .nextKind ?_ ?_
  · intro kind
    split
    case h_1 =>
      exact announced_repeats rfl (classDecl inner) (classDecl inner')
        fun _ _ => classDecl_repeats follows echoes
    case h_2 =>
      exact announced_repeats rfl (functionDecl inner) (functionDecl inner')
        fun _ _ => functionDecl_repeats follows echoes
    case h_3 =>
      exact announced_repeats rfl (variableDecl inner) (variableDecl inner')
        fun _ _ => variableDecl_repeats follows echoes
    case h_4 =>
      exact announced_repeats rfl importDecl importDecl
        fun _ _ => importDecl_repeats follows
    case h_5 =>
      exact announced_repeats rfl (conditional inner .effect .declaration)
        (conditional inner' .effect .declaration)
        fun _ _ => conditional_repeats follows echoes
    case h_6 =>
      exact announced_repeats rfl (forEach inner) (forEach inner')
        fun _ _ => forEach_repeats follows echoes
    case h_7 =>
      exact announced_repeats rfl (whileLoop inner) (whileLoop inner')
        fun _ _ => whileLoop_repeats follows echoes
    case h_8 =>
      exact announced_repeats rfl (repeatTimes inner) (repeatTimes inner')
        fun _ _ => repeatTimes_repeats follows echoes
    case h_9 =>
      exact announced_repeats rfl (switch inner) (switch inner')
        fun _ _ => switch_repeats follows echoes
    case h_10 =>
      exact announced_repeats rfl (tryCatch inner) (tryCatch inner')
        fun _ _ => tryCatch_repeats follows echoes
    case h_11 =>
      exact announced_repeats rfl (returnStmt inner) (returnStmt inner')
        fun _ _ => returnStmt_repeats follows echoes
    case h_12 =>
      refine announced_repeats rfl (valueStmt inner · .kwThrow .throwStmt)
        (valueStmt inner' · .kwThrow .throwStmt)
        fun _ _ => valueStmt_repeats follows echoes (fun _ => rfl) ?_
      simp_all [Form.mapTokens, Form.map]
    case h_13 =>
      refine announced_repeats rfl (valueStmt inner · .kwYield .yieldStmt)
        (valueStmt inner' · .kwYield .yieldStmt)
        fun _ _ => valueStmt_repeats follows echoes (fun _ => rfl) ?_
      simp_all [Form.mapTokens, Form.map]
    case h_14 =>
      exact announced_repeats rfl (jumpStmt · .kwBreak .breakLoop) (jumpStmt · .kwBreak .breakLoop)
        fun _ _ => jumpStmt_repeats follows
    case h_15 =>
      exact announced_repeats rfl (jumpStmt · .kwContinue .continueLoop)
        (jumpStmt · .kwContinue .continueLoop) fun _ _ => jumpStmt_repeats follows
    case h_16 =>
      exact announced_repeats rfl (jumpStmt · .kwFallthrough .fallthrough)
        (jumpStmt · .kwFallthrough .fallthrough) fun _ _ => jumpStmt_repeats follows
    case h_17 => exact expressionStmt_repeats follows echoes
  · intro c d n c' _ _ ended run _
    obtain ⟨value, c₁, found, -⟩ := bind_eq_ok.1 run
    have reads := (expressionWith_follows echoes.grammar (by decide)).reads found
    exact absurd ended reads.rest_ne_nil

end Statements

/-- Whatever is read of a text is read again in front of more tokens. -/
theorem constructWithin_echoes (follows : MayFollow more) {loop loop' : List Token}
    (enough : loop.length ≤ loop'.length) :
    EchoesGrammar more (constructWithin loop) (constructWithin loop') := by
  induction loop generalizing loop' with
  | nil =>
    refine ⟨constructWithin_follows [], fun _ _ => .fail _, forward_constructWithin [], ?_⟩
    intro c d n c' _ _ run
    exact absurd run not_fail_ok
  | cons round loop ih =>
    cases loop' with
    | nil => exact absurd enough (Nat.not_succ_le_zero _)
    | cons round' loop' =>
      have echoes := ih (Nat.le_of_succ_le_succ enough)
      exact ⟨constructWithin_follows (round :: loop),
        fun level askable => expressionWith_echoed follows echoes askable,
        forward_constructWithin (round :: loop), declarationWith_repeats follows echoes⟩

/-- A statement is read again in front of more tokens that cannot go on with it. -/
theorem construct_repeats (follows : MayFollow more) : Repeats more (fun _ => True)
    (Node.IsOver more) (construct .declaration) (construct .declaration) := by
  intro c d n c' heads holds run settled
  have enough : c.rest.length ≤ d.rest.length := by
    have lengths := heads.length_rest
    omega
  exact (constructWithin_echoes follows enough).statement c d n c' heads holds run settled

end Parser

end TekLang
