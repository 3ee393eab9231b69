import TekLang.Proofs.Renaming.Signatures

/-!
# The structure of types

What a type is apart from where it stands: what it begins with, the structures of its arguments and
the number of its dimensions. A path that is just a generic parameter begins with the place of that
parameter. The text of a type in a signature is that of its structure with such places.
-/

namespace TekLang

/-- What a type begins with. -/
inductive TypeHead
  | path (names : List String)
  /-- A generic parameter, by its place among the parameters. -/
  | place (index : Nat)
deriving DecidableEq, Inhabited, Repr

/-- The structure of a type. -/
inductive TypeShape
  | mk (head : TypeHead) (arguments : List TypeShape) (depth : Nat)
deriving Inhabited, Repr

namespace TypeHead

/-- What is written for the beginning of a type in a signature. -/
def text : TypeHead → String
  | path names => joined "." names
  | place index => "$" ++ toString index

/-- Puts the place of a generic parameter for a path that is its name: that of the first one of the
    name. -/
def placed (generics : List String) : TypeHead → TypeHead
  | path [single] =>
    match generics.idxOf? single with
    | some index => place index
    | none => path [single]
  | head => head

/-- Replaces names. -/
def renamed (ρ : String → String) : TypeHead → TypeHead
  | path names => path (names.map ρ)
  | place index => place index

/-- Whether a path consists of names such as texts have. -/
def IsNamed : TypeHead → Prop
  | path names => names ≠ [] ∧ ∀ name ∈ names, IsName name
  | place _ => True

/-- Whether a type that begins like this can be written: places only come about in signatures. -/
def IsWritten : TypeHead → Prop
  | path names => names ≠ [] ∧ ∀ name ∈ names, IsName name
  | place _ => False

end TypeHead

namespace TypeShape

mutual

/-- A structure as text. -/
def text : TypeShape → String
  | ⟨head, arguments, depth⟩ =>
    head.text ++ Signature.argumentsText (texts arguments) ++ Signature.brackets depth

/-- The structures of a list as texts. -/
def texts : List TypeShape → List String
  | [] => []
  | s :: ss => text s :: texts ss

end

mutual

/-- Whether two structures are the same. -/
def decEq : (s t : TypeShape) → Decidable (s = t)
  | ⟨head, arguments, depth⟩, ⟨head', arguments', depth'⟩ =>
    letI := decEqList arguments arguments'
    decidable_of_iff (head = head' ∧ arguments = arguments' ∧ depth = depth')
      (by rw [TypeShape.mk.injEq])

/-- Whether two lists of structures are the same. -/
def decEqList : (ss ts : List TypeShape) → Decidable (ss = ts)
  | [], [] => isTrue rfl
  | [], _ :: _ => isFalse nofun
  | _ :: _, [] => isFalse nofun
  | s :: ss, t :: ts =>
    letI := decEq s t
    letI := decEqList ss ts
    decidable_of_iff (s = t ∧ ss = ts) (by rw [List.cons.injEq])

end

instance : DecidableEq TypeShape := decEq

mutual

/-- Changes what types begin with, at any depth. -/
def mapHeads (f : TypeHead → TypeHead) : TypeShape → TypeShape
  | ⟨head, arguments, depth⟩ => ⟨f head, mapHeadsList f arguments, depth⟩

/-- Does so in a list of structures. -/
def mapHeadsList (f : TypeHead → TypeHead) : List TypeShape → List TypeShape
  | [] => []
  | s :: ss => mapHeads f s :: mapHeadsList f ss

end

/-- Puts the places of generic parameters for their names, at any depth. -/
def placed (generics : List String) : TypeShape → TypeShape := mapHeads (TypeHead.placed generics)

/-- Replaces names at any depth. -/
def renamed (ρ : String → String) : TypeShape → TypeShape := mapHeads (TypeHead.renamed ρ)

/-- Whether something holds of what types begin with, at any depth. -/
inductive All (P : TypeHead → Prop) : TypeShape → Prop
  | mk {head arguments depth} (own : P head) (each : ∀ s ∈ arguments, All P s) :
    All P ⟨head, arguments, depth⟩

/-- Whether the names in a type are such as texts have. -/
def IsNamed : TypeShape → Prop := All TypeHead.IsNamed

/-- Whether a type can be written. -/
def IsWritten : TypeShape → Prop := All TypeHead.IsWritten

@[simp] theorem texts_eq (ss : List TypeShape) : texts ss = ss.map text := by
  induction ss with
  | nil => rfl
  | cons s ss ih => simp [texts, ih]

@[simp] theorem mapHeadsList_eq (f : TypeHead → TypeHead) (ss : List TypeShape) :
    mapHeadsList f ss = ss.map (mapHeads f) := by
  induction ss with
  | nil => rfl
  | cons s ss ih => simp [mapHeadsList, ih]

theorem text_mk (head : TypeHead) (arguments : List TypeShape) (depth : Nat) :
    text ⟨head, arguments, depth⟩ =
      head.text ++ Signature.argumentsText (arguments.map text) ++ Signature.brackets depth := by
  rw [text, texts_eq]

theorem mapHeads_mk (f : TypeHead → TypeHead) (head : TypeHead) (arguments : List TypeShape)
    (depth : Nat) :
    mapHeads f ⟨head, arguments, depth⟩ = ⟨f head, arguments.map (mapHeads f), depth⟩ := by
  rw [mapHeads, mapHeadsList_eq]

variable {P Q : TypeHead → Prop} {f g : TypeHead → TypeHead} {s t : TypeShape}

theorem All.mapHeads (all : s.All P) (keeps : ∀ head, P head → Q (f head)) :
    (s.mapHeads f).All Q := by
  induction all with
  | mk own each ih =>
    rw [mapHeads_mk]
    refine .mk (keeps _ own) ?_
    intro t there
    obtain ⟨s, member, rfl⟩ := List.mem_map.1 there
    exact ih s member

/-- Changes that are made one after another. -/
theorem mapHeads_mapHeads {h : TypeHead → TypeHead} (all : s.All P)
    (same : ∀ head, P head → g (f head) = h head) :
    (s.mapHeads f).mapHeads g = s.mapHeads h := by
  induction all with
  | mk own each ih =>
    rw [mapHeads_mk, mapHeads_mk, mapHeads_mk, same _ own, List.map_map]
    exact congrArg (TypeShape.mk _ · _) (List.map_congr_left ih)

theorem eq_of_map_eq {α β : Type} {f : α → β} : ∀ {xs ys : List α},
    (∀ x ∈ xs, ∀ y ∈ ys, f x = f y → x = y) → xs.map f = ys.map f → xs = ys
  | [], [], _, _ => rfl
  | x :: xs, y :: ys, injective, same => by
    obtain ⟨first, others⟩ := List.cons.inj same
    rw [injective x List.mem_cons_self y List.mem_cons_self first, eq_of_map_eq
      (fun x there y there' => injective x (.tail _ there) y (.tail _ there')) others]

/-- If heads can be told after a change, so can types. -/
theorem eq_of_mapHeads (all : s.All P) (all' : t.All P)
    (injective : ∀ head head', P head → P head' → f head = f head' → head = head')
    (same : s.mapHeads f = t.mapHeads f) : s = t := by
  induction all generalizing t with
  | @mk head arguments depth own each ih =>
    cases all' with
    | @mk head' arguments' depth' own' each' =>
      rw [mapHeads_mk, mapHeads_mk] at same
      obtain ⟨heads, lists, rfl⟩ := TypeShape.mk.inj same
      have arguments : arguments = arguments' :=
        eq_of_map_eq (fun s there t there' => ih s there (each' t there')) lists
      rw [injective _ _ own own' heads, arguments]

end TypeShape

namespace TypeHead

variable {generics : List String} {head head' : TypeHead}

theorem IsWritten.exists_path (written : head.IsWritten) :
    ∃ names, head = path names ∧ names ≠ [] ∧ ∀ name ∈ names, IsName name := by
  cases head with
  | path names => exact ⟨names, rfl, written⟩
  | place => cases written

/-- A path is replaced only if it is the name of a generic parameter. -/
theorem placed_or (generics names : List String) :
    (∃ single index, names = [single] ∧ generics.idxOf? single = some index ∧
      placed generics (path names) = place index) ∨ placed generics (path names) = path names := by
  match names with
  | [single] =>
    cases found : generics.idxOf? single with
    | none =>
      right
      rw [placed, found]
    | some index =>
      refine .inl ⟨single, index, rfl, found, ?_⟩
      rw [placed, found]
  | [] => exact .inr rfl
  | _ :: _ :: _ => exact .inr rfl

theorem IsWritten.placed (written : head.IsWritten) (generics : List String) :
    (head.placed generics).IsNamed := by
  obtain ⟨names, rfl, named⟩ := written.exists_path
  rcases placed_or generics names with ⟨single, index, -, -, placed⟩ | placed
  · rw [placed]
    trivial
  · rw [placed]
    exact named

/-- With the generic parameters at hand a path can be told from what is put for it. -/
theorem eq_of_placed (written : head.IsWritten) (written' : head'.IsWritten)
    (same : head.placed generics = head'.placed generics) : head = head' := by
  obtain ⟨names, rfl, -⟩ := written.exists_path
  obtain ⟨names', rfl, -⟩ := written'.exists_path
  rcases placed_or generics names with ⟨single, index, rfl, found, placed⟩ | placed <;>
    rcases placed_or generics names' with ⟨single', index', rfl, found', placed'⟩ | placed' <;>
    rw [placed, placed'] at same
  · cases same
    obtain ⟨_, first, -⟩ := List.idxOf?_eq_some_iff.1 found
    obtain ⟨_, first', -⟩ := List.idxOf?_eq_some_iff.1 found'
    rw [← first, ← first']
  · cases same
  · cases same
  · exact same

end TypeHead

mutual

/-- The structure of a type as it is written. -/
def Node.typeShape : Node → TypeShape
  | ⟨_, _, .typeRef path arguments depth⟩ =>
    ⟨.path (path.map (·.lexeme)), typeShapes arguments, depth⟩
  | _ => ⟨.path [], [], 0⟩

/-- The structures of the types of a list. -/
def Node.typeShapes : List Node → List TypeShape
  | [] => []
  | n :: ns => n.typeShape :: typeShapes ns

end

namespace Node

@[simp] theorem typeShapes_eq (ns : List Node) : typeShapes ns = ns.map typeShape := by
  induction ns with
  | nil => rfl
  | cons n ns ih => simp [typeShapes, ih]

theorem typeShape_typeRef (id : NodeId) (span : Span) (path : List Token) (arguments : List Node)
    (depth : Nat) : typeShape ⟨id, span, .typeRef path arguments depth⟩ =
      ⟨.path (path.map (·.lexeme)), arguments.map typeShape, depth⟩ := by
  rw [typeShape, typeShapes_eq]

end Node

namespace Signature

theorem pathText_eq (generics : List String) (path : List Token) :
    pathText generics path = ((TypeHead.path (path.map (·.lexeme))).placed generics).text := by
  match path with
  | [single] =>
    rw [pathText, List.map_cons, List.map_nil, TypeHead.placed]
    cases generics.idxOf? single.lexeme <;> rfl
  | [] => rfl
  | _ :: _ :: _ => rfl

/-- The text of a type is that of its structure with the places of generic parameters. -/
theorem typeText_eq (generics : List String) (n : Node) :
    typeText generics n = (n.typeShape.placed generics).text := by
  induction n using Node.induction_on_children with
  | step n ih =>
    obtain ⟨id, span, form⟩ := n
    cases form with
    | typeRef path arguments depth =>
      have texts : typeTexts generics arguments = ((arguments.map Node.typeShape).map
          (TypeShape.mapHeads (TypeHead.placed generics))).map TypeShape.text := by
        rw [typeTexts_eq, List.map_map, List.map_map]
        exact List.map_congr_left fun m there => ih m (Node.mem_children.2 there)
      rw [typeText, Node.typeShape_typeRef, TypeShape.placed, TypeShape.mapHeads_mk,
        TypeShape.text_mk, texts, pathText_eq]
    | _ => rfl

/-- The structures of the types of parameters. -/
def parameterShapes (params : List Node) : List TypeShape :=
  params.filterMap fun p =>
    match p.form with
    | .parameter _ type => some type.typeShape
    | _ => none

theorem parameterTypes_eq (generics : List String) (params : List Node) :
    parameterTypes generics params =
      ((parameterShapes params).map (TypeShape.placed generics)).map TypeShape.text := by
  induction params with
  | nil => rfl
  | cons p params ih =>
    obtain ⟨id, span, form⟩ := p
    cases form with
    | parameter name type => exact congrArg₂ List.cons (typeText_eq generics type) ih
    | _ => exact ih

end Signature

/-- A type that was read can be written. -/
theorem Conforms.isWritten_typeShape {n : Node} (conforms : Conforms .type n) (named : n.IsNamed) :
    n.typeShape.IsWritten := by
  induction n using Node.induction_on_children with
  | step n ih =>
    obtain ⟨id, span, form⟩ := n
    cases conforms with
    | mk made each =>
      generalize is : Phrase.type = phrase at made
      cases made with
      | @typeRef first others dots generics args pairs brackets _ last _ _ arguments =>
        rw [Node.typeShape_typeRef]
        refine .mk ⟨List.cons_ne_nil _ _, ?_⟩ ?_
        · intro name there
          obtain ⟨token, member, rfl⟩ := List.mem_map.1 there
          exact (named.own member).2
        · intro s there
          obtain ⟨m, member, rfl⟩ := List.mem_map.1 there
          have item := List.mem_append_left brackets (arguments.mem_part member)
          refine ih m (Node.mem_children.2 member) (each _ _ ?_) (named.part member)
          exact .tail _ (List.mem_append_right dots item)
      | conditional use => cases use <;> cases is
      | _ => cases is

theorem Form.exists_typeRef_of_kind {α : Type} {form : Form α} (kind : form.kind = .variableType) :
    ∃ path generics depth, form = .typeRef path generics depth := by
  unfold Form.kind at kind
  split at kind <;> first | exact ⟨_, _, _, rfl⟩ | cases kind

theorem Conforms.eq_type {phrase : Phrase} {n : Node} {path : List Token} {generics : List Node}
    {depth : Nat} (conforms : Conforms phrase n) (form : n.form = .typeRef path generics depth) :
    phrase = .type := by
  obtain ⟨id, span, own⟩ := n
  cases form
  cases conforms with
  | mk made =>
    cases made
    rfl

/-- The types of every tree that is parsed from a text can be written. -/
theorem isWritten_of_mem_parse (source : String) {t : Node}
    (below : t ∈ (parse (lex source).tokens).program.descendants) (kind : t.kind = .variableType) :
    t.typeShape.IsWritten := by
  have program : (parse (lex source).tokens).program.IsNamed :=
    isNamed_parse fun t there kind => isName_of_mem_lex source there kind
  obtain ⟨path, generics, depth, form⟩ := Form.exists_typeRef_of_kind kind
  have conforms : Conforms .type t := by
    rcases eq_or_conforms_of_mem_descendants below with root | ⟨phrase, conforms⟩
    · obtain ⟨id, span, body, tree, -⟩ := parse_conforms (lex source).tokens
      rw [root, tree] at form
      cases form
    · obtain rfl := conforms.eq_type form
      exact conforms
  exact conforms.isWritten_typeShape (program.of_mem_descendants below)

theorem Conforms.of_parameter {phrase : Phrase} {n type : Node} {name : Token}
    (conforms : Conforms phrase n) (form : n.form = .parameter name type) :
    Conforms .type type := by
  obtain ⟨id, span, _⟩ := n
  cases form
  cases conforms with
  | mk made each =>
    cases made
    exact each _ _ (.tail _ (.tail _ (List.mem_singleton_self _)))

end TekLang
