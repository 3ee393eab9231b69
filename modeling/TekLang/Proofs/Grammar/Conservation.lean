import TekLang.Proofs.Grammar.Content
import TekLang.Proofs.Grammar.Tape

/-!
# Nothing is lost

What the tree of a whole program has to do with the tokens it was read from. Without faults it holds
every name, number, string and truth value exactly once, and for the tokens of a text in the order
of the text. With faults it still holds no token more often than it was given, and in any case its
nodes have different numbers.
-/

namespace TekLang

/-- Reading the nodes of a list one after another. -/
theorem readingOf_parts (phrase : Phrase) (ns : List Node) :
    readingOf (parts phrase ns) = ns.flatMap Node.reading := by
  unfold readingOf parts
  rw [List.flatMap_map]
  rfl

theorem Node.reading_program (id : NodeId) (span : Span) (body : List Node) :
    reading ⟨id, span, .program body⟩ = body.flatMap reading := by
  have slots : Node.slots ⟨id, span, .program body⟩ = body.map .inr := rfl
  rw [reading_eq, slots, List.flatMap_map]
  rfl

theorem Yields.skip {items : List Item} {used : List Token} {t : Token}
    (plain : t.kind.isContent = false) (yields : Yields items used) : Yields items (t :: used) := by
  have alone : contentOf [t] = [] := by
    apply List.filter_cons_of_neg
    rw [plain]
    exact Bool.false_ne_true
  exact (Yields.nil.behind alone).append yields

theorem construct_yields {c c' : Cursor} {n : Node}
    (run : Parser.construct .declaration c = .ok n c') :
    ∃ used, c.rest = used ++ c'.rest ∧ Yields [.part .declaration n] used :=
  (Parser.construct_follows.declaration.reads run).yields

namespace ReadsProgram

variable {c : Cursor} {top : TopLevel}

/-- Without faults a program holds what its tokens spell. -/
theorem yields (reads : ReadsProgram c top) (clean : top.errors = []) :
    Yields (parts .declaration top.body) c.rest := by
  induction reads with
  | done ended =>
    rw [ended]
    exact .nil
  | skip ahead layout others ih =>
    rw [ahead]
    refine .skip ?_ (ih clean)
    rcases layout with kind | kind <;> rw [kind] <;> rfl
  | declaration run others ih =>
    obtain ⟨used, taken, yields⟩ := construct_yields run
    rw [taken]
    exact yields.append (ih clean)
  | fault => cases clean

/-- Faults or none, a program holds no token more often than it is given. -/
theorem subperm (reads : ReadsProgram c top) :
    (top.body.flatMap Node.reading).Subperm c.rest := by
  induction reads with
  | done => exact List.nil_subperm
  | skip ahead layout others ih =>
    rw [ahead]
    exact ih.trans (List.sublist_cons_self _ _).subperm
  | declaration run others ih =>
    obtain ⟨used, taken, yields⟩ := construct_yields run
    have first := yields.subperm
    rw [readingOf, List.flatMap_singleton] at first
    rw [taken, List.flatMap_cons]
    exact first.append ih
  | @fault c c' e top run others ih =>
    have moves := (Parser.advances_construct .declaration).forward.error run
    exact ih.trans (c'.recover_suffix.trans moves.rest_suffix).sublist.subperm

/-- Faults or none, the nodes of a program have different numbers. -/
theorem numbered (reads : ReadsProgram c top) :
    Numbered (parts .declaration top.body) c.nextId top.nextId := by
  induction reads with
  | done => exact .nil _
  | skip ahead layout others ih => exact ih
  | declaration run others ih =>
    have first := Parser.construct_follows.declaration.reads run
    exact first.numbered.append ih
  | @fault c c' e top run others ih =>
    have low := ((Parser.advances_construct .declaration).forward.error run).nextId_le
    refine ⟨Nat.le_trans low ih.le, ?_, ih.apart⟩
    intro i member
    have bounds := ih.range i member
    exact ⟨Nat.le_trans low bounds.1, bounds.2⟩

end ReadsProgram

/-- The tree of a list of tokens without faults holds every token that is there for its spelling
    exactly once, and reading it from left to right passes those of a text in the order of the text.
    With faults it holds no token more often than the list. -/
theorem parse_keeps_tokens (tokens : List Token) :
    ((parse tokens).diagnostics = [] →
      (contentOf (parse tokens).program.tokens).Perm
        (contentOf (tokens.takeWhile (·.kind ≠ .eof)))) ∧
    ((parse tokens).diagnostics = [] → ∀ source, tokens = (lex source).tokens →
      contentOf (parse tokens).program.reading =
        contentOf (tokens.takeWhile (·.kind ≠ .eof))) ∧
    ∀ t, (parse tokens).program.tokens.count t ≤ (tokens.takeWhile (·.kind ≠ .eof)).count t := by
  obtain ⟨top, span, reads, tree⟩ := parse_reads tokens
  have whole : (parse tokens).program.reading = readingOf (parts .declaration top.body) := by
    rw [tree, Node.reading_program, readingOf_parts]
  have perm := (parse tokens).program.reading_perm_tokens
  have clean (none : (parse tokens).diagnostics = []) : top.errors = [] := by
    rw [tree] at none
    exact List.map_eq_nil_iff.1 none
  refine ⟨?_, ?_, ?_⟩
  · intro none
    have yields := reads.yields (clean none)
    rw [whole] at perm
    exact (perm.symm.filter _).trans yields.content_perm
  · intro none source lexed
    have yields := reads.yields (clean none)
    have ordered := wordsInOrder_lex source
    rw [← lexed] at ordered
    rw [whole]
    exact yields.content_eq (ordered.of_sublist (List.takeWhile_sublist _))
  · intro t
    rw [whole, readingOf_parts] at perm
    exact (perm.symm.subperm.trans reads.subperm).count_le t

/-- A constructor behind a field is kept in another list than the field and read behind it. -/
theorem parse_keeps_tokens_class :
    (parse (lex "class A\n  var b: C\n  new(d: E)\n").tokens).diagnostics = [] ∧
      (contentOf (parse (lex "class A\n  var b: C\n  new(d: E)\n").tokens).program.reading).map
        (·.lexeme) = ["A", "b", "C", "d", "E"] := by
  have clean : (parse (lex "class A\n  var b: C\n  new(d: E)\n").tokens).diagnostics = [] := by
    decide +kernel
  refine ⟨clean, ?_⟩
  rw [(parse_keeps_tokens _).2.1 clean _ rfl]
  decide +kernel

/-- The tokens of a tree are tokens that it was read from. -/
theorem mem_of_mem_tokens_parse {tokens : List Token} {t : Token}
    (there : t ∈ (parse tokens).program.tokens) : t ∈ tokens := by
  obtain ⟨top, span, reads, tree⟩ := parse_reads tokens
  have read : t ∈ (parse tokens).program.reading :=
    (parse tokens).program.reading_perm_tokens.mem_iff.2 there
  rw [tree, Node.reading_program] at read
  exact (List.takeWhile_sublist _).subset (reads.subperm.subset read)

/-- No two nodes of a tree have one number. -/
theorem parse_ids_nodup (tokens : List Token) :
    ((parse tokens).program.descendants.map (·.id)).Nodup := by
  obtain ⟨top, span, reads, tree⟩ := parse_reads tokens
  have numbered := reads.numbered
  have whole : (parse tokens).program.descendants.map (·.id) =
      top.nextId :: numbersOf (parts .declaration top.body) := by
    rw [tree, Node.descendants_eq, List.map_cons, List.map_flatMap, numbersOf, nodesOf_parts]
    rfl
  rw [whole, List.nodup_cons]
  refine ⟨?_, numbered.apart⟩
  intro member
  exact Nat.lt_irrefl _ (numbered.range _ member).2

end TekLang
