import TekLang.Proofs.Grammar.Derivation
import TekLang.Proofs.Grammar.TopLevel
import TekLang.Proofs.Token.Lines

/-!
# Brackets of a program

Every phrase closes the brackets that it opens, so a program without faults leaves none open.
-/

namespace TekLang

/-- How many brackets are open behind items, of which the parts count for nothing. -/
def nestingBehind (nesting : Nat) : List Item → Nat
  | [] => nesting
  | .word t :: items => nestingBehind (Scan.nestingAfter nesting t.kind) items
  | .part .. :: items => nestingBehind nesting items

/-- The items close the brackets that they open. -/
def ClosesBrackets (items : List Item) : Prop := ∀ nesting, nestingBehind nesting items = nesting

theorem nestingBehind_append (nesting : Nat) (xs ys : List Item) :
    nestingBehind nesting (xs ++ ys) = nestingBehind (nestingBehind nesting xs) ys := by
  induction xs generalizing nesting with
  | nil => rfl
  | cons x xs ih => cases x <;> exact ih _

/-- A word that is no bracket changes nothing. -/
theorem nestingBehind_word {t : Token} {kind : TokenKind} (same : t.kind = kind)
    (plain : ∀ nesting, Scan.nestingAfter nesting kind = nesting) (nesting : Nat)
    (items : List Item) :
    nestingBehind nesting (.word t :: items) = nestingBehind nesting items := by
  rw [nestingBehind, same, plain]

namespace ClosesBrackets

variable {phrase : Phrase} {mark close : TokenKind} {α : Type} {Means : α → List Item → Prop}

theorem nil : ClosesBrackets [] := fun _ => rfl

theorem append {xs ys : List Item} (first : ClosesBrackets xs) (second : ClosesBrackets ys) :
    ClosesBrackets (xs ++ ys) := by
  intro nesting
  rw [nestingBehind_append, first, second]

theorem word {t : Token} {items : List Item} {kind : TokenKind} (same : t.kind = kind)
    (plain : ∀ nesting, Scan.nestingAfter nesting kind = nesting) (closes : ClosesBrackets items) :
    ClosesBrackets (.word t :: items) := by
  intro nesting
  rw [nestingBehind_word same plain, closes]

theorem part {n : Node} {items : List Item} (closes : ClosesBrackets items) :
    ClosesBrackets (.part phrase n :: items) := closes

theorem ofParts (nodes : List Node) : ClosesBrackets (parts phrase nodes) := by
  induction nodes with
  | nil => exact nil
  | cons n nodes ih => exact part ih

theorem isPart {n : Node} {items : List Item} (means : IsPart phrase n items) :
    ClosesBrackets items := by
  cases means
  exact part nil

theorem eachAfter {as : List α} {items : List Item} (each : EachAfter mark Means as items)
    (closes : ∀ t a items, t.kind = mark → Means a items → ClosesBrackets (.word t :: items)) :
    ClosesBrackets items := by
  induction each with
  | nil => exact nil
  | cons marked first _ ih => exact append (closes _ _ _ marked first) ih

theorem optionally {a? : Option α} {items : List Item} (given : Optionally mark Means a? items)
    (closes : ∀ t a items, t.kind = mark → Means a items → ClosesBrackets (.word t :: items)) :
    ClosesBrackets items := by
  cases given with
  | none => exact nil
  | some marked thing => exact closes _ _ _ marked thing

/-- The closing bracket of a list is one too many for the list. -/
theorem listed {nodes : List Node} {items : List Item} (listed : Listed phrase close nodes items)
    (nesting : Nat) : nestingBehind nesting items = Scan.nestingAfter nesting close := by
  induction listed with
  | close closes | last closes =>
    simp only [nestingBehind, closes]
  | cons separates _ ih => rw [nestingBehind, nestingBehind_word separates fun _ => rfl, ih]

/-- A bracket, a list and the bracket that closes it. -/
theorem brackets {t : Token} {opening : TokenKind} {nodes : List Node} {items : List Item}
    (opens : t.kind = opening) (content : Listed phrase close nodes items)
    (match' : ∀ nesting, Scan.nestingAfter (Scan.nestingAfter nesting opening) close = nesting) :
    ClosesBrackets (.word t :: items) := by
  intro nesting
  rw [nestingBehind, listed content, opens, match']

theorem listAfter {Means : List Node → List Item → Prop} {nodes : List Node} {items : List Item}
    (list : ListAfter mark Means nodes items)
    (closes : ∀ t nodes items, t.kind = mark → Means nodes items →
      ClosesBrackets (.word t :: items)) : ClosesBrackets items := by
  cases list with
  | none => exact nil
  | some marked list => exact closes _ _ _ marked list

theorem inAngles {nodes : List Node} {items : List Item} (list : InAngles phrase nodes items) :
    ClosesBrackets items :=
  listAfter list fun _ _ _ marked content => brackets marked content fun _ => rfl

theorem typed {type : Option Node} {items : List Item} (annotated : Annotation type items) :
    ClosesBrackets items :=
  optionally annotated fun _ _ _ marked thing => word marked (fun _ => rfl) (isPart thing)

theorem block {nodes : List Node} {items : List Item} (indented : Block phrase nodes items) :
    ClosesBrackets items := by
  obtain ⟨_, line, lines, opens, closes⟩ := indented
  refine word line (fun _ => rfl) (append ?_ (word opens (fun _ => rfl) (append (ofParts _) ?_)))
  · clear line opens closes
    rename_i blank
    induction blank with
    | nil => exact nil
    | cons t blank ih =>
      obtain ⟨line, lines⟩ := List.forall_mem_cons.1 lines
      exact word line (fun _ => rfl) (ih lines)
  · exact word closes (fun _ => rfl) nil

theorem ending {items : List Item} (ends : Ending items) : ClosesBrackets items := by
  cases ends with
  | none => exact nil
  | newline line => exact word line (fun _ => rfl) nil

theorem body {nodes : List Node} {items : List Item} (indented : Body phrase nodes items) :
    ClosesBrackets items := by
  cases indented with
  | block indented => exact block indented
  | none ends => exact ending ends

end ClosesBrackets

open ClosesBrackets in
/-- Every phrase closes the brackets that it opens. -/
theorem Production.closesBrackets {phrase : Phrase} {items : List Item} {first last : Token}
    {span : Span} {form : Form Node} (made : Production phrase items first last span form) :
    ClosesBrackets items := by
  have names {mark : TokenKind} (plain : ∀ nesting, Scan.nestingAfter nesting mark = nesting)
      (t name : Token) (items : List Item) (marked : t.kind = mark)
      (named : IsWord .identifier name items) : ClosesBrackets (.word t :: items) := by
    obtain ⟨same⟩ := named
    exact word marked plain (word same (fun _ => rfl) nil)
  have things {phrase : Phrase} {mark : TokenKind}
      (plain : ∀ nesting, Scan.nestingAfter nesting mark = nesting) (t : Token) (n : Node)
      (items : List Item) (marked : t.kind = mark) (thing : IsPart phrase n items) :
      ClosesBrackets (.word t :: items) := word marked plain (isPart thing)
  cases made with
  | typeRef named path arguments dimensions =>
    refine word named (fun _ => rfl) (append (eachAfter path (names fun _ => rfl))
      (append (inAngles arguments) (eachAfter dimensions ?_)))
    rintro t right _ marked ⟨same⟩
    exact fun nesting => by rw [nestingBehind, nestingBehind, nestingBehind, marked, same]; rfl
  | generic named bounded =>
    exact word named (fun _ => rfl) (optionally bounded (things fun _ => rfl))
  | parameter named announces =>
    exact word named (fun _ => rfl) (word announces (fun _ => rfl) nil)
  | importedName named renamed =>
    exact word named (fun _ => rfl) (optionally renamed (names fun _ => rfl))
  | identifier kind | this kind | super kind => exact word kind (fun _ => rfl) nil
  | literal sort kind =>
    cases sort <;> exact word kind (fun _ => rfl) nil
  | wrapped opens closes =>
    exact fun nesting => by simp only [nestingBehind, opens, closes]; rfl
  | array opens content => exact brackets opens content fun _ => rfl
  | unary kind =>
    rcases kind with kind | kind <;> exact word kind (fun _ => rfl) nil
  | async kind => exact word kind (fun _ => rfl) nil
  | new kind content =>
    refine word kind (fun _ => rfl) (part (listAfter content ?_))
    exact fun _ _ _ marked listed => brackets marked listed fun _ => rfl
  | conditional use kind indented otherwise =>
    exact word kind (fun _ => rfl) (part (append (block indented) (ofParts _)))
  | elseBranch use kind indented => exact word kind (fun _ => rfl) (block indented)
  | elseIf use kind => exact word kind (fun _ => rfl) nil
  | @binary left operator right first last kind =>
    have plain : ∀ kind, kind ∈ TokenKind.binaryOperators ∨ kind = .less →
        ∀ nesting, Scan.nestingAfter nesting kind = nesting := by
      intro kind joins
      cases kind <;> first | exact fun _ => rfl | exact absurd joins (by decide)
    exact part (word rfl (plain _ kind) (part nil))
  | call arguments opens content =>
    exact append (inAngles arguments) (brackets opens content fun _ => rfl)
  | index opens closes => exact fun nesting => by simp only [nestingBehind, opens, closes]; rfl
  | member joins named =>
    refine word joins (fun _ => rfl) ?_
    rcases named with named | named <;> exact word named (fun _ => rfl) nil
  | instanceOf kind | assignment kind => exact word kind (fun _ => rfl) nil
  | variableDecl kind named annotated given =>
    exact word kind (fun _ => rfl) (word named (fun _ => rfl)
      (append (typed annotated) (optionally given (things fun _ => rfl))))
  | functionDecl given kind named arguments opens content annotated indented =>
    refine word kind (fun _ => rfl) (word named (fun _ => rfl) (append (inAngles arguments) ?_))
    rw [← List.cons_append]
    refine append (brackets opens content fun _ => rfl) (append (typed annotated) ?_)
    cases given with
    | none =>
      rw [show _ = [] from indented]
      exact nil
    | some nodes => exact block indented
  | constructor kind opens content indented =>
    exact word kind (fun _ => rfl) (append (brackets opens content fun _ => rfl) (body indented))
  | instanceMember | expressionStmt => exact nil
  | staticMember kind => exact word kind (fun _ => rfl) nil
  | classDecl kind named arguments extended indented =>
    refine word kind (fun _ => rfl) (word named (fun _ => rfl) (append (inAngles arguments)
      (append (listAfter extended ?_) (body indented))))
    rintro t nodes _ marked ⟨more⟩
    exact word marked (fun _ => rfl) (part (eachAfter more (things fun _ => rfl)))
  | importDecl kind named path renamed listed =>
    refine word kind (fun _ => rfl) (word named (fun _ => rfl)
      (append (eachAfter path (names fun _ => rfl))
        (append (optionally renamed (names fun _ => rfl))
        (listAfter listed ?_))))
    exact fun _ _ _ marked content => brackets marked content fun _ => rfl
  | forEach kind named annotated runs indented =>
    exact word kind (fun _ => rfl) (word named (fun _ => rfl)
      (append (typed annotated) (word runs (fun _ => rfl) (part (block indented)))))
  | whileLoop kind indented | switch kind indented =>
    exact word kind (fun _ => rfl) (part (block indented))
  | repeatTimes kind counts indented =>
    exact word kind (fun _ => rfl) (part (word counts (fun _ => rfl) (block indented)))
  | switchCase kind more indented =>
    exact word kind (fun _ => rfl)
      (part <| append (eachAfter more (things fun _ => rfl)) (block indented))
  | catchClause kind named annotated indented =>
    exact word kind (fun _ => rfl) (word named (fun _ => rfl)
      (append (typed annotated) (block indented)))
  | tryCatch kind indented => exact word kind (fun _ => rfl) (append (block indented) nil)
  | returnStmt kind value => exact word kind (fun _ => rfl) (ofParts _)
  | throwStmt kind | yieldStmt kind => exact word kind (fun _ => rfl) nil
  | jumpStmt jump kind =>
    rcases kind with kind | kind | kind <;> exact word kind (fun _ => rfl) nil

/-- How many brackets are open behind tokens in front of which `nesting` are. -/
def nestingBehindTokens (nesting : Nat) (ts : List Token) : Nat :=
  ts.foldl (fun nesting t => Scan.nestingAfter nesting t.kind) nesting

/-- Items open as many brackets as the tokens that they take. -/
theorem Reads.nesting {items : List Item} {c c' : Cursor} (reads : Reads items c c') :
    ∃ used, c.rest = used ++ c'.rest ∧
      ∀ nesting, nestingBehindTokens nesting used = nestingBehind nesting items := by
  induction reads with
  | nil c => exact ⟨[], rfl, fun _ => rfl⟩
  | @word t rest items c c' ahead others ih =>
    obtain ⟨used, taken, same⟩ := ih
    refine ⟨t :: used, ?_, fun _ => same _⟩
    rw [ahead, List.cons_append, ← taken]
    rfl
  | part begins made within closed ends others ih_within ih_closed ih_others =>
    obtain ⟨used₁, taken₁, same₁⟩ := ih_within
    obtain ⟨used₂, taken₂, same₂⟩ := ih_closed
    obtain ⟨used₃, taken₃, same₃⟩ := ih_others
    refine ⟨used₁ ++ used₂ ++ used₃, ?_, ?_⟩
    · rw [taken₁, taken₂, List.append_assoc, List.append_assoc]
      exact congrArg _ (congrArg _ taken₃)
    · intro nesting
      unfold nestingBehindTokens at same₁ same₂ same₃ ⊢
      rw [List.foldl_append, List.foldl_append, same₁, same₂, same₃, made.closesBrackets,
        ClosesBrackets.ending ends]
      rfl

/-- A program without faults closes the brackets that it opens. -/
theorem ReadsProgram.closesBrackets {c : Cursor} {top : TopLevel} (reads : ReadsProgram c top)
    (clean : top.errors = []) (nesting : Nat) : nestingBehindTokens nesting c.rest = nesting := by
  induction reads generalizing nesting with
  | done ended => rw [ended]; rfl
  | @skip c t rest top ahead layout others ih =>
    rw [ahead]
    have plain : Scan.nestingAfter nesting t.kind = nesting := by
      rcases layout with kind | kind <;> rw [kind] <;> rfl
    exact (congrArg (nestingBehindTokens · rest) plain).trans (ih clean nesting)
  | declaration run others ih =>
    obtain ⟨used, taken, same⟩ :=
      (Parser.construct_follows.declaration.reads run).nesting
    have first := same nesting
    unfold nestingBehindTokens at first ih ⊢
    rw [taken, List.foldl_append, first]
    exact ih clean nesting
  | fault => cases clean

end TekLang
