import TekLang.Proofs.Grammar.Production
import TekLang.Proofs.Node.Reading
import TekLang.Proofs.Span

/-!
# What a node keeps of its items

A node holds every node among the items it is made of, and of the words at least those that are
there for their spelling, all in the order in which they were read. Only the members of a class are
put into three lists, and come into order again where they start one behind another.
-/

namespace TekLang

/-- The nodes among items. -/
def nodesOf (items : List Item) : List Node := items.filterMap Item.node?

@[simp] theorem nodesOf_nil : nodesOf [] = [] := rfl

@[simp] theorem nodesOf_part (phrase : Phrase) (n : Node) (items : List Item) :
    nodesOf (.part phrase n :: items) = n :: nodesOf items := rfl

theorem nodesOf_append (items items' : List Item) :
    nodesOf (items ++ items') = nodesOf items ++ nodesOf items' := List.filterMap_append

@[simp] theorem nodesOf_parts (phrase : Phrase) (ns : List Node) :
    nodesOf (parts phrase ns) = ns := by
  induction ns with
  | nil => rfl
  | cons n ns ih => exact congrArg (n :: ·) ih

/-- Of the items the slots keep all nodes and, in the same order, some of the words, those with a
    spelling that counts among them. -/
inductive Retains : List (Token ⊕ Node) → List Item → Prop
  | nil : Retains [] []
  | word {t slots items} (others : Retains slots items) :
    Retains (.inl t :: slots) (.word t :: items)
  | part {phrase n slots items} (others : Retains slots items) :
    Retains (.inr n :: slots) (.part phrase n :: items)
  | skip {t kind slots items} (same : t.kind = kind) (plain : kind.isContent = false)
    (others : Retains slots items) : Retains slots (.word t :: items)

namespace Retains

theorem append {slots slots' : List (Token ⊕ Node)} {items items' : List Item}
    (first : Retains slots items) (second : Retains slots' items') :
    Retains (slots ++ slots') (items ++ items') := by
  induction first with
  | nil => exact second
  | word _ ih => exact .word ih
  | part _ ih => exact .part ih
  | skip same plain _ ih => exact .skip same plain ih

theorem map_append {ns ns' : List Node} {items items' : List Item}
    (first : Retains (ns.map .inr) items) (second : Retains (ns'.map .inr) items') :
    Retains ((ns ++ ns').map .inr) (items ++ items') := by
  rw [List.map_append]
  exact first.append second

theorem parts (phrase : Phrase) (ns : List Node) : Retains (ns.map .inr) (parts phrase ns) := by
  induction ns with
  | nil => exact .nil
  | cons n ns ih => exact .part ih

theorem words {ts : List Token} (plain : ∀ t ∈ ts, t.kind = .newline) :
    Retains [] (ts.map .word) := by
  induction ts with
  | nil => exact .nil
  | cons t ts ih =>
    have others : ∀ u ∈ ts, u.kind = .newline := by
      intro u member
      exact plain u (.tail _ member)
    exact .skip (plain t List.mem_cons_self) rfl (ih others)

theorem nodes_eq {slots : List (Token ⊕ Node)} {items : List Item} (retains : Retains slots items) :
    slots.filterMap Sum.getRight? = nodesOf items := by
  induction retains with
  | nil => rfl
  | word _ ih => exact ih
  | part _ ih => exact congrArg _ ih
  | skip _ _ _ ih => exact ih

end Retains

variable {α : Type} {mark close : TokenKind} {phrase : Phrase} {items : List Item}

theorem IsWord.retains {kind : TokenKind} {t : Token} (word : IsWord kind t items) :
    Retains [.inl t] items := by
  cases word
  exact .word .nil

theorem IsPart.retains {n : Node} (part : IsPart phrase n items) : Retains [.inr n] items := by
  cases part
  exact .part .nil

theorem EachAfter.retains {Means : α → List Item → Prop} {f : α → List (Token ⊕ Node)} {as : List α}
    (each : EachAfter mark Means as items) (plain : mark.isContent = false)
    (one : ∀ a items, Means a items → Retains (f a) items) : Retains (as.flatMap f) items := by
  induction each with
  | nil => exact .nil
  | cons marked first _ ih => exact .skip marked plain ((one _ _ first).append ih)

theorem EachAfter.retains_words {kind : TokenKind} {ts : List Token}
    (each : EachAfter mark (IsWord kind) ts items) (plain : mark.isContent = false) :
    Retains (ts.map .inl) items := by
  rw [List.map_eq_flatMap]
  exact each.retains plain fun _ _ word => word.retains

theorem EachAfter.retains_parts {ns : List Node} (each : EachAfter mark (IsPart phrase) ns items)
    (plain : mark.isContent = false) : Retains (ns.map .inr) items := by
  rw [List.map_eq_flatMap]
  exact each.retains plain fun _ _ part => part.retains

/-- The pairs of brackets behind a type are counted and not kept. -/
theorem EachAfter.retains_brackets {ts : List Token}
    (each : EachAfter .leftBracket (IsWord .rightBracket) ts items) : Retains [] items := by
  have one : ∀ t items, IsWord .rightBracket t items → Retains [] items := by
    intro t items bracket
    cases bracket with
    | mk same => exact .skip same rfl .nil
  have kept := each.retains rfl one
  rwa [List.flatMap_eq_nil_iff.2 fun _ _ => rfl] at kept

theorem Optionally.retains {Means : α → List Item → Prop} {f : α → Token ⊕ Node} {a? : Option α}
    (optional : Optionally mark Means a? items) (plain : mark.isContent = false)
    (one : ∀ a items, Means a items → Retains [f a] items) : Retains (a?.toList.map f) items := by
  cases optional with
  | none => exact .nil
  | some marked thing => exact .skip marked plain (one _ _ thing)

theorem Optionally.retains_word {kind : TokenKind} {t? : Option Token}
    (optional : Optionally mark (IsWord kind) t? items) (plain : mark.isContent = false) :
    Retains (t?.toList.map .inl) items := optional.retains plain fun _ _ word => word.retains

theorem Optionally.retains_part {n? : Option Node}
    (optional : Optionally mark (IsPart phrase) n? items) (plain : mark.isContent = false) :
    Retains (n?.toList.map .inr) items := optional.retains plain fun _ _ part => part.retains

theorem ListAfter.retains {Means : List Node → List Item → Prop} {ns : List Node}
    (list : ListAfter mark Means ns items) (plain : mark.isContent = false)
    (all : ∀ ns items, Means ns items → Retains (ns.map .inr) items) :
    Retains (ns.map .inr) items := by
  cases list with
  | none => exact .nil
  | some marked list => exact .skip marked plain (all _ _ list)

theorem Listed.retains {ns : List Node} (listed : Listed phrase close ns items)
    (plain : close.isContent = false) : Retains (ns.map .inr) items := by
  induction listed with
  | close closes => exact .skip closes plain .nil
  | last closes => exact .part (.skip closes plain .nil)
  | cons separates _ ih => exact .part (.skip separates rfl ih)

theorem ListAfter.retains_listed {ns : List Node}
    (list : ListAfter mark (Listed phrase close) ns items) (plain : mark.isContent = false)
    (plain' : close.isContent = false) : Retains (ns.map .inr) items :=
  list.retains plain fun _ _ listed => listed.retains plain'

theorem Block.retains {ns : List Node} (block : Block phrase ns items) :
    Retains (ns.map .inr) items := by
  cases block with
  | mk _ line lines opens closes =>
    have kept := (Retains.parts phrase ns).append (.skip closes rfl .nil)
    rw [List.append_nil] at kept
    exact .skip line rfl ((Retains.words lines).append (.skip opens rfl kept))

theorem Ending.retains (ends : Ending items) : Retains [] items := by
  cases ends with
  | none => exact .nil
  | newline line => exact .skip line rfl .nil

theorem Body.retains {ns : List Node} (body : Body phrase ns items) :
    Retains (ns.map .inr) items := by
  cases body with
  | block block => exact block.retains
  | none ends => exact ends.retains

theorem Bases.retains {ns : List Node} (bases : Bases ns items) : Retains (ns.map .inr) items := by
  cases bases with
  | mk more => exact .part (more.retains_parts rfl)

/-- The constituents of a form in the order of its fields or, for a class, with the members in the
    order in which they were read. -/
inductive Form.Arranges : Form Node → List Node → Prop
  | fields (form) : Arranges form form.parts
  | members (name generics bases members) :
    Arranges
      (.classDecl name generics bases
        (members.filter fun m => decide (Parser.Section.ofMember m = .constructors))
        (members.filter fun m => decide (Parser.Section.ofMember m = .statics))
        (members.filter fun m => decide (Parser.Section.ofMember m = .instances)))
      (generics ++ bases ++ members)

variable {first last : Token} {span : Span} {form : Form Node}

theorem retains_of_elim (body : Option (List Node))
    (indented : body.elim (items = []) (Block phrase · items)) :
    Retains ((body.getD []).map .inr) items := by
  cases body with
  | none =>
    obtain rfl := indented
    exact .nil
  | some body => exact Block.retains indented

theorem Production.retains (made : Production phrase items first last span form) :
    ∃ nodes, form.Arranges nodes ∧ Retains (form.slots nodes) items := by
  cases made with
  | typeRef named path arguments dimensions =>
    refine ⟨_, .fields _, .word ((path.retains_words rfl).append ?_)⟩
    have kept := (arguments.retains_listed rfl rfl).append dimensions.retains_brackets
    rwa [List.append_nil] at kept
  | generic named bounded => exact ⟨_, .fields _, .word (bounded.retains_part rfl)⟩
  | parameter named announces => exact ⟨_, .fields _, .word (.skip announces rfl (.part .nil))⟩
  | importedName named renamed =>
    refine ⟨_, .fields _, .word ?_⟩
    have kept := renamed.retains_word rfl
    rwa [← List.append_nil (List.map Sum.inl _)] at kept
  | identifier kind => exact ⟨_, .fields _, .word .nil⟩
  | literal sort kind => exact ⟨_, .fields _, .word .nil⟩
  | this kind => exact ⟨_, .fields _, .skip kind rfl .nil⟩
  | super kind => exact ⟨_, .fields _, .skip kind rfl .nil⟩
  | wrapped opens closes =>
    exact ⟨_, .fields _, .skip opens rfl (.part (.skip closes rfl .nil))⟩
  | array opens content => exact ⟨_, .fields _, .skip opens rfl (content.retains rfl)⟩
  | unary kind => exact ⟨_, .fields _, .word (.part .nil)⟩
  | async kind => exact ⟨_, .fields _, .skip kind rfl (.part .nil)⟩
  | new kind content =>
    exact ⟨_, .fields _, .skip kind rfl (.part (content.retains_listed rfl rfl))⟩
  | conditional use kind indented otherwise =>
    exact ⟨_, .fields _, .skip kind rfl (.part (indented.retains.map_append (.parts ..)))⟩
  | elseBranch use kind indented => exact ⟨_, .fields _, .skip kind rfl indented.retains⟩
  | elseIf use kind => exact ⟨_, .fields _, .skip kind rfl (.part .nil)⟩
  | binary kind => exact ⟨_, .fields _, .part (.word (.part .nil))⟩
  | call arguments opens content =>
    refine ⟨_, .fields _, .part ?_⟩
    exact (arguments.retains_listed rfl rfl).map_append (.skip opens rfl (content.retains rfl))
  | index opens closes =>
    exact ⟨_, .fields _, .part (.skip opens rfl (.part (.skip closes rfl .nil)))⟩
  | member joins named => exact ⟨_, .fields _, .part (.skip joins rfl (.word .nil))⟩
  | instanceOf kind => exact ⟨_, .fields _, .part (.skip kind rfl (.part .nil))⟩
  | assignment kind assignable => exact ⟨_, .fields _, .part (.skip kind rfl (.part .nil))⟩
  | variableDecl kind named annotated given =>
    refine ⟨_, .fields _, .skip kind rfl (.word ?_)⟩
    exact (annotated.retains_part rfl).map_append (given.retains_part rfl)
  | functionDecl body kind named arguments opens content annotated indented =>
    refine ⟨_, .fields _, .skip kind rfl (.word ?_)⟩
    rw [Form.parts, List.append_assoc, List.append_assoc]
    refine (arguments.retains_listed rfl rfl).map_append (.skip opens rfl ?_)
    refine (content.retains rfl).map_append ((annotated.retains_part rfl).map_append ?_)
    exact retains_of_elim body indented
  | constructor kind opens content indented =>
    refine ⟨_, .fields _, .skip kind rfl (.skip opens rfl ?_)⟩
    exact (content.retains rfl).map_append indented.retains
  | instanceMember => exact ⟨_, .fields _, .part .nil⟩
  | staticMember kind => exact ⟨_, .fields _, .skip kind rfl (.part .nil)⟩
  | classDecl kind named arguments extended indented =>
    refine ⟨_, .members .., .skip kind rfl (.word ?_)⟩
    rw [List.append_assoc]
    refine (arguments.retains_listed rfl rfl).map_append (.map_append ?_ indented.retains)
    exact extended.retains rfl fun _ _ bases => bases.retains
  | importDecl kind named path renamed listed either =>
    refine ⟨_, .fields _, .skip kind rfl (.word ?_)⟩
    have kept := (path.retains_words rfl).append
      ((renamed.retains_word rfl).append (listed.retains_listed rfl rfl))
    rwa [← List.append_assoc, ← List.map_append] at kept
  | forEach kind named annotated runs indented =>
    refine ⟨_, .fields _, .skip kind rfl (.word ?_)⟩
    exact (annotated.retains_part rfl).map_append (.skip runs rfl (.part indented.retains))
  | whileLoop kind indented => exact ⟨_, .fields _, .skip kind rfl (.part indented.retains)⟩
  | repeatTimes kind counts indented =>
    exact ⟨_, .fields _, .skip kind rfl (.part (.skip counts rfl indented.retains))⟩
  | switchCase kind more indented =>
    refine ⟨_, .fields _, .skip kind rfl (.part ?_)⟩
    exact (more.retains_parts rfl).map_append indented.retains
  | switch kind indented => exact ⟨_, .fields _, .skip kind rfl (.part indented.retains)⟩
  | catchClause kind named annotated indented =>
    refine ⟨_, .fields _, .skip kind rfl (.word ?_)⟩
    exact (annotated.retains_part rfl).map_append indented.retains
  | tryCatch kind indented =>
    exact ⟨_, .fields _, .skip kind rfl (indented.retains.map_append (.part .nil))⟩
  | returnStmt kind value => exact ⟨_, .fields _, .skip kind rfl (.parts ..)⟩
  | throwStmt kind => exact ⟨_, .fields _, .skip kind rfl (.part .nil)⟩
  | yieldStmt kind => exact ⟨_, .fields _, .skip kind rfl (.part .nil)⟩
  | jumpStmt jump kind =>
    refine ⟨_, .fields _, ?_⟩
    rcases kind with kind | kind | kind <;> exact .skip kind rfl .nil
  | expressionStmt => exact ⟨_, .fields _, .part .nil⟩

theorem sections_perm (members : List Node) :
    ((members.filter fun m => decide (Parser.Section.ofMember m = .constructors)) ++
      (members.filter fun m => decide (Parser.Section.ofMember m = .statics)) ++
      (members.filter fun m => decide (Parser.Section.ofMember m = .instances))).Perm members := by
  induction members with
  | nil => exact .refl _
  | cons m members ih =>
    cases belongs : Parser.Section.ofMember m with
    | constructors => simpa [belongs] using ih.cons m
    | statics =>
      simp only [List.filter_cons, belongs, reduceCtorEq, decide_true, decide_false, if_true,
        Bool.false_eq_true, if_false]
      rw [List.append_assoc] at ih ⊢
      exact List.perm_middle.trans (ih.cons m)
    | instances =>
      simp only [List.filter_cons, belongs, reduceCtorEq, decide_true, decide_false, if_true,
        Bool.false_eq_true, if_false]
      exact List.perm_middle.trans (ih.cons m)

namespace Form.Arranges

theorem perm {nodes : List Node} (arranged : form.Arranges nodes) : nodes.Perm form.parts := by
  cases arranged with
  | fields => exact .refl _
  | members name generics bases members =>
    exact List.Perm.append_left _ (sections_perm members).symm

/-- Constituents that start one behind another are the children in their order. -/
theorem eq_children {nodes : List Node} (arranged : form.Arranges nodes)
    (ordered : nodes.Pairwise (·.start < ·.start)) (id : NodeId) (span : Span) :
    Node.children ⟨id, span, form⟩ = nodes := by
  cases arranged with
  | fields =>
    cases form with
    | classDecl name generics bases constructors statics instances =>
      have members := (List.pairwise_append.1 ordered).2.1
      exact congrArg _ (inSourceOrder_eq_of_perm (.refl _) members)
    | _ => rfl
  | members name generics bases members =>
    have members := (List.pairwise_append.1 ordered).2.1
    exact congrArg _ (inSourceOrder_eq_of_perm (sections_perm _) members)

end Form.Arranges

namespace Form

theorem nodes_slots (form : Form Node) (nodes : List Node) :
    (form.slots nodes).filterMap Sum.getRight? = nodes := by
  have keep (ns : List Node) :
      (ns.map Sum.inr : List (Token ⊕ Node)).filterMap Sum.getRight? = ns := by
    rw [List.filterMap_map]
    exact List.filterMap_some
  have drop (ts : List Token) :
      (ts.map Sum.inl : List (Token ⊕ Node)).filterMap Sum.getRight? = [] := by
    rw [List.filterMap_map]
    exact List.filterMap_eq_nil_iff.2 fun _ _ => rfl
  unfold slots
  rw [List.filterMap_append, List.filterMap_append, keep, keep, drop, List.nil_append,
    List.take_append_drop]

end Form

namespace Production

/-- The nodes among the items of a phrase are the constituents of its node. -/
theorem nodesOf_perm (made : Production phrase items first last span form) :
    (nodesOf items).Perm form.parts := by
  obtain ⟨nodes, arranged, kept⟩ := made.retains
  rw [← kept.nodes_eq, form.nodes_slots]
  exact arranged.perm

/-- The nodes among the items of a phrase are the children of its node, whenever they start one
    behind another. -/
theorem children_eq (made : Production phrase items first last span form) (id : NodeId)
    (ordered : (nodesOf items).Pairwise (·.start < ·.start)) :
    Node.children ⟨id, span, form⟩ = nodesOf items := by
  obtain ⟨nodes, arranged, kept⟩ := made.retains
  rw [← kept.nodes_eq, form.nodes_slots] at ordered ⊢
  exact arranged.eq_children ordered id span

/-- The slots of the node of a phrase keep its items, whenever its constituents start one behind
    another. -/
theorem retains_slots (made : Production phrase items first last span form) (id : NodeId)
    (ordered : (nodesOf items).Pairwise (·.start < ·.start)) :
    Retains (Node.slots ⟨id, span, form⟩) items := by
  obtain ⟨nodes, arranged, kept⟩ := made.retains
  rw [← kept.nodes_eq, form.nodes_slots] at ordered
  rw [Node.slots, arranged.eq_children ordered]
  exact kept

end Production

end TekLang
