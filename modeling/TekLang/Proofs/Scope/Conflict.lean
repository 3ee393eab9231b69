import Mathlib.Data.List.Flatten
import TekLang.Proofs.Grammar.Arrangement
import TekLang.Proofs.Scope.Declarations
import TekLang.Proofs.Scope.Refusal
import TekLang.Proofs.Token.Rereading

/-!
# Conflicts

Which programs have no scopes. Two declarations of one region are in conflict if the first, in the
order of the text, leaves no room for the second: they are functions of one signature, or the second
is a class whose name the first has. Building the scopes of a text fails exactly if there is such a
pair, and then with the error of the second declaration of one.
-/

namespace TekLang

/-- Two declarations stand in one region of a program, the second behind the first, and exclude each
    other. -/
structure Conflict (program : Node) (first second : Declaration) : Prop where
  together : ∃ n ∈ program.descendants, ∃ region, (region = .around → n = program) ∧
    first ∈ n.declarationsIn region ∧ second ∈ n.declarationsIn region
  behind : first.name.span.start < second.name.span.start
  excludes : first.Excludes second

/-! Declarations stand in the order of the text. -/

namespace Node

theorem reading_children_sublist (n : Node) : (n.children.flatMap reading).Sublist n.reading := by
  have parted := List.take_append_drop n.form.leading n.children
  rw [reading_eq, slots, Form.slots]
  simp only [List.flatMap_append, List.flatMap_map, Sum.elim_inr]
  conv_lhs => rw [← parted, List.flatMap_append]
  exact (List.Sublist.refl _).append (List.sublist_append_right ..)

/-- A node whose tokens stand in front of its constituents is read in this order. -/
theorem reading_of_leading {n : Node} (leading : n.form.leading = 0) :
    n.reading = n.form.tokens ++ n.children.flatMap reading := by
  rw [reading_eq, slots, Form.slots, leading]
  simp [List.flatMap_map]

theorem mem_reading_of_declaredName {n : Node} {name : Token}
    (declares : n.declaredName? = some name) : name ∈ n.form.tokens ∧ name ∈ n.reading := by
  have token : name ∈ n.form.tokens := by
    obtain ⟨id, span, form⟩ := n
    cases form with
    | importDecl path rename =>
      cases rename with
      | none => exact List.mem_append_left _ (List.mem_of_getLast? declares)
      | some rename =>
        cases declares
        exact List.mem_append_right _ List.mem_cons_self
    | importedName _ rename =>
      cases rename with
      | none =>
        cases declares
        exact List.mem_cons_self
      | some rename =>
        cases declares
        exact .tail _ List.mem_cons_self
    | variableDecl | functionDecl | classDecl | forEach | parameter | generic | catchClause =>
      cases declares
      exact List.mem_cons_self
    | _ => cases declares
  refine ⟨token, ?_⟩
  rw [n.reading_perm_tokens.mem_iff, tokens_eq]
  exact List.mem_append_left _ token

theorem reading_sublist {n top : Node} (below : n ∈ top.descendants) :
    n.reading.Sublist top.reading := by
  induction top using induction_on_children with
  | step top ih =>
    rw [descendants_eq] at below
    rcases List.mem_cons.1 below with rfl | below
    · exact .refl _
    · obtain ⟨child, there, below⟩ := List.mem_flatMap.1 below
      have part := List.sublist_flatten_of_mem (List.mem_map_of_mem (f := reading) there)
      exact ((ih child there below).trans part).trans top.reading_children_sublist

end Node

/-- The names of declarations. -/
def namesOf (ds : List Declaration) : List Token := ds.map (·.name)

theorem namesOf_append (ds ds' : List Declaration) :
    namesOf (ds ++ ds') = namesOf ds ++ namesOf ds' := List.map_append

theorem namesOf_filterMap {f : Node → Option Declaration} {ns : List Node}
    (each : ∀ n d, f n = some d → n.declaredName? = some d.name) :
    (namesOf (ns.filterMap f)).Sublist (ns.flatMap Node.reading) := by
  induction ns with
  | nil => exact .slnil
  | cons n ns ih =>
    rw [List.flatMap_cons]
    cases made : f n with
    | none =>
      rw [List.filterMap_cons_none made]
      exact ih.trans (List.sublist_append_right ..)
    | some d =>
      rw [List.filterMap_cons_some made]
      have name := (Node.mem_reading_of_declaredName (each n d made)).2
      exact (List.singleton_sublist.2 name).append ih

theorem namesOf_parameters (ns : List Node) :
    (namesOf (ns.filterMap Node.parameter?)).Sublist (ns.flatMap Node.reading) :=
  namesOf_filterMap fun _ _ made => (Node.of_parameter? made).2

/-- An import declares its own name, or else the names that it lists. -/
theorem namesOf_import (id : NodeId) (span : Span) (path : List Token) (rename : Option Token)
    (exposed : List Node) :
    (namesOf (Node.declarations ⟨id, span, .importDecl path rename exposed⟩ .around)).Sublist
      (path ++ rename.toList ++ exposed.flatMap Node.reading) := by
  cases rename with
  | some name =>
    exact (List.sublist_append_right path [name]).trans (List.sublist_append_left ..)
  | none =>
    by_cases empty : exposed.isEmpty
    · simp only [Node.declarations, empty, if_true, namesOf, List.map_map]
      refine List.Sublist.trans ?_ (List.sublist_append_left ..)
      refine List.Sublist.trans ?_ (List.sublist_append_left ..)
      cases last : path.getLast? with
      | none => exact List.nil_sublist _
      | some name => exact List.singleton_sublist.2 (List.mem_of_getLast? last)
    · simp only [Node.declarations, empty, Bool.false_eq_true, if_false]
      refine List.Sublist.trans ?_ (List.sublist_append_right ..)
      exact namesOf_filterMap fun _ _ made => (Node.of_listed? made).2

theorem standing_sublist (n : Node) (region : Region) :
    (n.standing region).Sublist n.children := by
  rw [← n.map_snd_placed]
  exact List.filter_sublist.map _

/-- What a node declares itself is read before the other declarations in the region. -/
theorem namesOf_declarationsIn {n : Node} (regular : n.IsRegular) (region : Region) :
    (namesOf (n.declarationsIn region)).Sublist n.reading := by
  induction n using Node.induction_on_children generalizing region with
  | step n ih =>
    have below {ns : List Node} (parts : ∀ m ∈ ns, m ∈ n.children) :
        (namesOf (ns.flatMap (·.declarationsIn .around))).Sublist (ns.flatMap Node.reading) := by
      unfold namesOf
      rw [List.map_flatMap]
      refine List.Sublist.flatMap_right ns ?_
      intro m there
      have under := Node.mem_descendants_of_child (parts m there) m.mem_descendants_self
      exact ih m (parts m there) (regular.of_mem_descendants under) .around
    have stand := (below fun m there => Node.mem_children_of_mem_standing there).trans
      ((standing_sublist n region).flatMap Node.reading)
    have details := fun m there => Node.declarationsIn_of_isDetail
      (regular.details n n.mem_descendants_self m there)
    rw [Node.declarationsIn_eq, namesOf_append]
    -- The node declares nothing itself, or the name in front of all that stands below it, or those
    -- of the generics and parameters that stand in front of everything else.
    have silent (none : n.declarations region = []) :
        (namesOf (n.declarations region) ++ namesOf ((n.standing region).flatMap
          (·.declarationsIn .around))).Sublist n.reading := by
      rw [none]
      exact stand.trans n.reading_children_sublist
    have named {d : Declaration} (leading : n.form.leading = 0) (token : n.form.tokens = [d.name])
        (single : n.declarations region = [d]) :
        (namesOf (n.declarations region) ++ namesOf ((n.standing region).flatMap
          (·.declarationsIn .around))).Sublist n.reading := by
      rw [n.reading_of_leading leading, token, single]
      exact (List.Sublist.refl [d.name]).append stand
    have parameters {first some others : List Node} (leading : n.form.leading = 0)
        (children : n.children = first ++ others) (stands : n.standing region = first ++ some)
        (within : some.Sublist others) (parts : ∀ m ∈ first, m ∈ n.form.details)
        (declared : n.declarations region = first.filterMap Node.parameter?) :
        (namesOf (n.declarations region) ++ namesOf ((n.standing region).flatMap
          (·.declarationsIn .around))).Sublist n.reading := by
      have nothing : first.flatMap (·.declarationsIn .around) = [] :=
        List.flatMap_eq_nil_iff.2 fun m there => details m (parts m there)
      have others := (below fun m there => by
        rw [children]
        exact List.mem_append_right _ (within.subset there)).trans (within.flatMap Node.reading)
      rw [n.reading_of_leading leading, children, stands, declared, List.flatMap_append, nothing,
        List.nil_append, List.flatMap_append]
      exact ((namesOf_parameters first).append others).trans (List.sublist_append_right ..)
    obtain ⟨id, span, form⟩ := n
    cases form with
    | variableDecl name =>
      cases region with
      | around => exact named rfl rfl rfl
      | own | statics => exact silent rfl
    | forEach name | catchClause name =>
      cases region with
      | own => exact named rfl rfl rfl
      | around | statics => exact silent rfl
    | functionDecl name generics params result body =>
      cases region with
      | around => exact named rfl rfl rfl
      | statics => exact silent rfl
      | own =>
        have children : Node.children ⟨id, span, .functionDecl name generics params result body⟩ =
            (generics ++ params) ++ (result.toList ++ body.getD []) := by
          simp [Node.children, Form.parts]
        refine parameters rfl children ?_ (.refl _) ?_ List.filterMap_append.symm
        · rw [← children]
          simp [Node.standing, Node.placed]
        · exact fun m there => List.mem_append_left _ there
    | classDecl name generics bases constructors statics instances =>
      cases region with
      | around => exact named rfl rfl rfl
      | statics => exact silent rfl
      | own =>
        let members := inSourceOrder Node.start (constructors ++ statics ++ instances)
        have within : (bases ++ members.filter (Region.ofMember · = .own)).Sublist
            (bases ++ members) := List.filter_sublist.append_left _
        refine parameters rfl (List.append_assoc ..) ?_ within ?_ rfl
        · simp [Node.standing, Node.placed, members]
        · exact fun m there => List.mem_append_left _ there
    | constructor params body =>
      cases region with
      | around | statics => exact silent rfl
      | own =>
        refine parameters rfl rfl ?_ (.refl _) (fun m there => there) rfl
        simp [Node.standing, Node.placed, Node.children, Form.parts]
    | importDecl path rename exposed =>
      cases region with
      | around =>
        have stands :
            Node.standing ⟨id, span, .importDecl path rename exposed⟩ .around = exposed := by
          simp [Node.standing, Node.placed, Node.children, Form.parts]
        have nothing : exposed.flatMap (·.declarationsIn .around) = [] :=
          List.flatMap_eq_nil_iff.2 details
        rw [Node.reading_of_leading rfl, stands, nothing, show namesOf [] = [] from rfl,
          List.append_nil]
        exact namesOf_import ..
      | own | statics => exact silent rfl
    | _ => cases region <;> exact silent rfl

/-- The declarations of a region of a text stand one behind another. -/
theorem declarationsIn_inOrder (source : String) {n : Node}
    (below : n ∈ (parse (lex source).tokens).program.descendants) (region : Region) :
    (n.declarationsIn region).Pairwise (·.name.span.start < ·.name.span.start) := by
  have regular := (parse_isRegular (lex source).tokens).of_mem_descendants below
  have names := (namesOf_declarationsIn regular region).trans (Node.reading_sublist below)
  have content : contentOf (namesOf (n.declarationsIn region)) =
      namesOf (n.declarationsIn region) := by
    refine List.filter_eq_self.2 ?_
    intro t member
    obtain ⟨d, there, rfl⟩ := List.mem_map.1 member
    obtain ⟨under, named⟩ := Node.of_mem_declarationsIn there
    rw [parse_declaredName ((Node.descendants_sublist below).subset under) named]
    rfl
  have spelt : (namesOf (n.declarationsIn region)).Sublist
      (contentOf (parse (lex source).tokens).program.reading) := by
    rw [← content]
    exact names.filter _
  have ordered := (parse_reading_inOrder source).sublist spelt
  rwa [namesOf, List.pairwise_map] at ordered

/-! Constructors are bound under signatures that no function has. -/

/-- The reserved word is no name. -/
theorem lexeme_ne_new (source : String) {t : Token} (there : t ∈ (lex source).tokens)
    (name : t.kind = .identifier) : t.lexeme ≠ "new" := by
  intro spelt
  have word : t ∈ wordsOf (lex source).tokens := by
    refine List.mem_filter.2 ⟨there, ?_⟩
    rw [name]
    rfl
  obtain ⟨c, cs, chars, -, reads⟩ := isReadable_of_mem_lex source t word
  rw [spelt, show "new".toList = ['n', 'e', 'w'] by decide, List.cons.injEq] at chars
  obtain ⟨rfl, rfl⟩ := chars
  obtain ⟨l, absorbed, -, settles⟩ := reads t.span.start
  have goes (start place : Position) (spelling : String) {c : Char} (part : isWordPart c = true) :
      (⟨start, spelling, .word⟩ : Lexeme).extend? place c = some ⟨start, spelling.push c, .word⟩ :=
    if_pos part
  rw [show Lexeme.ofChar t.span.start 'n' = ⟨t.span.start, "n", .word⟩ from rfl, Lexeme.absorb,
    goes _ _ _ (by decide), Option.bind_some, Lexeme.absorb, goes _ _ _ (by decide),
    Option.bind_some, Lexeme.absorb] at absorbed
  cases absorbed
  have settled := settles t.span.start
  simp only [Lexeme.settle, Lexeme.token, List.cons.injEq, Piece.token.injEq,
    Token.mk.injEq] at settled
  rw [← settled.1.1, settled.1.2.1, spelt] at name
  exact absurd name (by decide)

/-- A signature tells the name that it begins with. -/
theorem takeWhile_text {name : String} (plain : IsPlainName name) (generics : List String)
    (params : List Node) :
    (Signature.text name generics params).toList.takeWhile (· ≠ '(') = name.toList := by
  have before : ∀ c ∈ name.toList, decide (c ≠ '(') = true := by
    intro c there
    exact decide_eq_true fun paren => plain (paren ▸ there)
  rw [Signature.text, String.toList_append, String.toList_append, String.toList_append,
    List.append_assoc, List.append_assoc, List.takeWhile_append_of_pos before]
  simp

/-- A declaration by a name that is neither a signature nor the reserved word. -/
structure Declaration.IsProper (d : Declaration) : Prop where
  plain : IsPlainName d.name.lexeme
  unreserved : d.name.lexeme ≠ "new"

/-- A declaration that is excluded has an error that tells. -/
theorem Declaration.Excludes.exists_refusal {first second : Declaration}
    (excludes : first.Excludes second) : ∃ e, second.refusal? = some e := by
  obtain ⟨name, node, sort⟩ := first
  obtain ⟨name', node', sort'⟩ := second
  cases sort' with
  | plain => cases sort <;> cases excludes
  | ofClass | ofFunction => exact ⟨_, rfl⟩

/-- Declarations exclude each other whose bindings have one key. -/
theorem key_eq_iff_excludes {first second : Declaration} (proper : first.IsProper)
    (proper' : second.IsProper) (refuses : second.refusal? ≠ none) :
    first.binding.key = second.binding.key ↔ first.Excludes second := by
  obtain ⟨name, node, sort⟩ := first
  obtain ⟨name', node', sort'⟩ := second
  cases sort' with
  | plain => exact absurd rfl refuses
  | ofClass =>
    cases sort with
    | plain | ofClass => exact Iff.rfl
    | ofFunction generics params =>
      refine iff_of_false ?_ not_false
      intro (same : Signature.ofFunction name generics params = name'.lexeme)
      have plain := proper'.plain
      rw [← same] at plain
      exact not_isPlainName_text _ _ _ plain
  | ofFunction generics' params' =>
    cases sort with
    | plain | ofClass =>
      refine iff_of_false ?_ not_false
      intro (same : name.lexeme = Signature.ofFunction name' generics' params')
      have plain := proper.plain
      rw [same] at plain
      exact not_isPlainName_text _ _ _ plain
    | ofFunction generics params => exact Iff.rfl

/-- No constructor has the key of a declaration. -/
theorem key_ne_of_isSignature {b : Binding} {d : Declaration} (signature : b.isSignature = true)
    (proper : d.IsProper) : b.key ≠ d.binding.key := by
  cases b with
  | unique | function => cases signature
  | plain text node =>
    intro (same : text = d.binding.key)
    have begins : "new(".toList.isPrefixOf d.binding.key.toList = true := same ▸ signature
    obtain ⟨name, node, sort⟩ := d
    cases sort with
    | plain | ofClass => exact not_isPlainName_of_isPrefixOf begins proper.plain
    | ofFunction generics params =>
      obtain ⟨rest, chars⟩ := List.isPrefixOf_iff_prefix.1 begins
      have front := takeWhile_text proper.plain (Signature.genericNames generics) params
      change "new(".toList ++ rest = (Signature.text name.lexeme _ params).toList at chars
      rw [← chars, show "new(".toList = ['n', 'e', 'w', '('] by decide] at front
      have spelt : "new".toList = name.lexeme.toList := front
      exact proper.unreserved (String.toList_injective spelt).symm

variable {bs : List Binding} {ds : List Declaration} {e : ScopeError}

/-- A binding is refused exactly if two declarations in front of each other exclude each other. -/
theorem refused_iff (declared : declaredOf bs = ds.map Declaration.binding)
    (proper : ∀ d ∈ ds, d.IsProper)
    (ordered : ds.Pairwise (·.name.span.start < ·.name.span.start)) :
    Refused (fun _ => False) bs e ↔ ∃ first ∈ ds, ∃ second ∈ ds,
      first.name.span.start < second.name.span.start ∧ first.Excludes second ∧
        second.refusal? = some e := by
  constructor
  · rintro ⟨before, b, after, rfl, refuses, none | ⟨a, there, same⟩⟩
    · cases none
    have kept : b.isSignature = false := by
      cases b with
      | plain => cases refuses
      | unique | function => rfl
    rw [declaredOf_append, declaredOf, declaredOf,
      List.filter_cons_of_pos (by simp [kept])] at declared
    obtain ⟨earlier, others, rfl, first, rest⟩ := List.map_eq_append_iff.1 declared.symm
    obtain ⟨second, later, rfl, rfl, -⟩ := List.map_eq_cons_iff.1 rest
    rw [Declaration.refusal?_binding] at refuses
    have properSecond := proper second (by simp)
    have declares : a.isSignature = false := by
      by_contra signature
      exact key_ne_of_isSignature (by simpa using signature) properSecond same
    have made : a ∈ earlier.map Declaration.binding := by
      rw [first]
      exact List.mem_filter.2 ⟨there, by simp [declares]⟩
    obtain ⟨first, member, rfl⟩ := List.mem_map.1 made
    have properFirst := proper first (List.mem_append_left _ member)
    refine ⟨first, List.mem_append_left _ member, second, by simp, ?_, ?_, refuses⟩
    · exact (List.pairwise_append.1 ordered).2.2 first member second List.mem_cons_self
    · refine (key_eq_iff_excludes properFirst properSecond ?_).1 same
      rw [refuses]
      exact Option.some_ne_none e
  · rintro ⟨first, there, second, there', behind, excludes, refuses⟩
    obtain ⟨earlier, later, rfl⟩ := List.append_of_mem there'
    have member : first ∈ earlier := by
      rcases List.mem_append.1 there with there | there
      · exact there
      · have after := (List.pairwise_cons.1 (List.pairwise_append.1 ordered).2.1).1
        rcases List.mem_cons.1 there with rfl | there
        · exact absurd behind (Position.lt_irrefl _)
        · have circle := Position.lt_of_lt_of_le behind (Position.le_of_lt (after first there))
          exact absurd circle (Position.lt_irrefl _)
    rw [List.map_append, List.map_cons] at declared
    obtain ⟨before, others, rfl, kept, rest⟩ := List.filter_eq_append_iff.1 declared
    obtain ⟨dropped, after, rfl, -, -, -⟩ := List.filter_eq_cons_iff.1 rest
    refine ⟨before ++ dropped, second.binding, after, by simp, ?_, .inr ⟨first.binding, ?_, ?_⟩⟩
    · rw [Declaration.refusal?_binding, refuses]
    · have made := List.mem_map_of_mem (f := Declaration.binding) member
      rw [← kept] at made
      exact List.mem_append_left _ (List.mem_of_mem_filter made)
    · refine (key_eq_iff_excludes (proper first there) (proper second there') ?_).2 excludes
      rw [refuses]
      exact Option.some_ne_none e

/-- What is declared in the tree of a text is declared by a name of the text. -/
theorem mem_lex_of_declaredName {source : String} {n : Node}
    (below : n ∈ (parse (lex source).tokens).program.descendants) {name : Token}
    (declares : n.declaredName? = some name) :
    name ∈ (lex source).tokens ∧ name.kind = .identifier := by
  have held : name ∈ (parse (lex source).tokens).program.tokens :=
    List.mem_flatMap.2 ⟨n, below, (Node.mem_reading_of_declaredName declares).1⟩
  exact ⟨mem_of_mem_tokens_parse held, parse_declaredName below declares⟩

theorem parse_isOrderly (source : String) : (parse (lex source).tokens).program.IsOrderly where
  arranged := parse_arranges source
  plain := by
    intro n below name declares
    obtain ⟨there, kind⟩ := mem_lex_of_declaredName below declares
    exact isPlainName_of_mem_lex source there kind

theorem isProper_of_mem_declarationsIn (source : String) {n : Node}
    (below : n ∈ (parse (lex source).tokens).program.descendants) {region : Region} :
    ∀ d ∈ n.declarationsIn region, d.IsProper := by
  intro d declared
  obtain ⟨under, named⟩ := Node.of_mem_declarationsIn declared
  have under := (Node.descendants_sublist below).subset under
  obtain ⟨there, kind⟩ := mem_lex_of_declaredName under named
  exact ⟨isPlainName_of_mem_lex source there kind, lexeme_ne_new source there kind⟩

section Built

variable {source : String}

theorem refused_bindingsIn_iff {n : Node}
    (below : n ∈ (parse (lex source).tokens).program.descendants) (region : Region)
    (e : ScopeError) :
    Refused (fun _ => region = .around ∧ False) (n.bindingsIn region) e ↔
      ∃ first ∈ n.declarationsIn region, ∃ second ∈ n.declarationsIn region,
        first.name.span.start < second.name.span.start ∧ first.Excludes second ∧
          second.refusal? = some e := by
  have regular := (parse_isRegular (lex source).tokens).of_mem_descendants below
  have orderly := (parse_isOrderly source).of_mem_descendants below
  simp only [and_false]
  exact refused_iff (Node.declaredOf_bindingsIn regular orderly region)
    (isProper_of_mem_declarationsIn source below) (declarationsIn_inOrder source below region)

theorem parse_error_iff (source : String) :
    ((∃ e, buildScopes (parse (lex source).tokens).program = .error e) ↔
        ∃ e, (parse (lex source).tokens).program.Refuses (fun _ => False) e) ∧
      ∀ e, buildScopes (parse (lex source).tokens).program = .error e →
        (parse (lex source).tokens).program.Refuses (fun _ => False) e := by
  obtain ⟨id, span, body, tree, -⟩ := parse_conforms (lex source).tokens
  have is : (parse (lex source).tokens).program.form = .program body := by rw [tree]
  exact buildScopes_error_iff is (parse_isRegular (lex source).tokens)

/-- Where the scopes are built, no two declarations are in conflict. -/
theorem not_conflict_of_ok {tree : ScopeTree}
    (built : buildScopes (parse (lex source).tokens).program = .ok tree)
    (first second : Declaration) : ¬ Conflict (parse (lex source).tokens).program first second := by
  rintro ⟨⟨n, below, region, only, there, there'⟩, behind, excludes⟩
  obtain ⟨e, error⟩ := excludes.exists_refusal
  have refused := (refused_bindingsIn_iff below region e).2
    ⟨first, there, second, there', behind, excludes, error⟩
  obtain ⟨e, failed⟩ := (parse_error_iff source).1.2 ⟨e, n, below, region, only, refused⟩
  rw [built] at failed
  cases failed

/-- Where they are not, the error is that of the second declaration of a conflict. -/
theorem exists_conflict_of_error
    (failed : buildScopes (parse (lex source).tokens).program = .error e) :
    ∃ first second, Conflict (parse (lex source).tokens).program first second ∧
      second.refusal? = some e := by
  obtain ⟨n, below, region, only, refused⟩ := (parse_error_iff source).2 e failed
  obtain ⟨first, there, second, there', behind, excludes, error⟩ :=
    (refused_bindingsIn_iff below region e).1 refused
  exact ⟨first, second, ⟨⟨n, below, region, only, there, there'⟩, behind, excludes⟩, error⟩

end Built

/-- Building the scopes of a text fails exactly if two of its declarations are in conflict, and then
    with the error of the second declaration of such a pair. -/
theorem buildScopes_fails_iff_conflict (source : String) :
    ((∃ e, buildScopes (parse (lex source).tokens).program = .error e) ↔
      ∃ first second, Conflict (parse (lex source).tokens).program first second) ∧
    ∀ e, buildScopes (parse (lex source).tokens).program = .error e →
      ∃ first second, Conflict (parse (lex source).tokens).program first second ∧
        second.refusal? = some e := by
  obtain ⟨id, span, body, tree, -⟩ := parse_conforms (lex source).tokens
  have is : (parse (lex source).tokens).program.form = .program body := by rw [tree]
  have regular := parse_isRegular (lex source).tokens
  have orderly := parse_isOrderly source
  obtain ⟨fails, names⟩ := buildScopes_error_iff is regular
  have conflicts (e : ScopeError) :
      (parse (lex source).tokens).program.Refuses (fun _ => False) e ↔
        ∃ first second, Conflict (parse (lex source).tokens).program first second ∧
          second.refusal? = some e := by
    have refuses {n : Node} (below : n ∈ (parse (lex source).tokens).program.descendants)
        (region : Region) := refused_iff (e := e)
      (Node.declaredOf_bindingsIn (regular.of_mem_descendants below)
        (orderly.of_mem_descendants below) region)
      (isProper_of_mem_declarationsIn source below) (declarationsIn_inOrder source below region)
    have none {region : Region} : (fun _ : String => region = Region.around ∧ False) =
        fun _ => False := funext fun _ => propext ⟨And.right, False.elim⟩
    constructor
    · rintro ⟨n, below, region, only, refused⟩
      rw [none, refuses below region] at refused
      obtain ⟨first, there, second, there', behind, excludes, error⟩ := refused
      exact ⟨first, second, ⟨⟨n, below, region, only, there, there'⟩, behind, excludes⟩, error⟩
    · rintro ⟨first, second, ⟨⟨n, below, region, only, there, there'⟩, behind, excludes⟩, error⟩
      refine ⟨n, below, region, only, ?_⟩
      rw [none, refuses below region]
      exact ⟨first, there, second, there', behind, excludes, error⟩
  refine ⟨fails.trans ?_, ?_⟩
  · simp only [conflicts]
    constructor
    · rintro ⟨e, first, second, conflict, -⟩
      exact ⟨first, second, conflict⟩
    · rintro ⟨first, second, conflict⟩
      obtain ⟨e, error⟩ := conflict.excludes.exists_refusal
      exact ⟨e, first, second, conflict, error⟩
  · intro e failed
    exact (conflicts e).1 (names e failed)

end TekLang
