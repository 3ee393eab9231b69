import TekLang.Proofs.Grammar.Tape

/-!
# Keeping a log

`Logged` goes along with a stream of tokens and writes down every node that is made, those too that
a fault leaves in no tree. The readers are the same, so that a run with a log is the run itself:
what is read is the same, and what is written down is what was made. A simulation of a stream is one
of the stream with a log, in which each node stands at the place of its number.
-/

namespace TekLang

/-- A place among tokens, and the nodes that were made on the way there. -/
structure Logged (σ : Type) where
  place : σ
  made : List Node

variable {σ : Type} [TokenStream σ]

instance : TokenStream (Logged σ) where
  upcoming s := TokenStream.upcoming s.place
  nextKind s := TokenStream.nextKind s.place
  atEnd s := TokenStream.atEnd s.place
  last s := TokenStream.last s.place
  startsBlock s := TokenStream.startsBlock s.place
  startsConstructor s := TokenStream.startsConstructor s.place
  startsGenericCall s := TokenStream.startsGenericCall s.place
  rounds s := TokenStream.rounds s.place
  index s := TokenStream.index s.place
  advance s :=
    let (t, place) := TokenStream.advance s.place
    (t, { s with place })
  node span form s :=
    let (n, place) := TokenStream.node span form s.place
    (n, ⟨place, s.made ++ [n]⟩)

namespace Simulation

variable (sim : Simulation σ)

/-- A stream with a log shows what the stream shows, and the log has a node for each number. -/
def logged : Simulation (Logged σ) where
  τ := sim.τ
  Shows s c := sim.Shows s.place c ∧ s.made.map (·.id) = (List.range c.nextId).map sim.τ.number
  nextKind shows := sim.nextKind shows.1
  upcoming shows := sim.upcoming shows.1
  atEnd shows := sim.atEnd shows.1
  last shows := sim.last shows.1
  startsBlock shows := sim.startsBlock shows.1
  startsConstructor shows := sim.startsConstructor shows.1
  startsGenericCall shows := sim.startsGenericCall shows.1
  rounds shows := sim.rounds shows.1
  index shows shows' := sim.index shows.1 shows'.1
  token shows := sim.token shows.1
  advance {s c} shows := by
    obtain ⟨shows, numbers⟩ := shows
    have same : c.advance.2.nextId = c.nextId := by
      unfold Cursor.advance
      cases c.rest <;> rfl
    refine ⟨sim.advance shows, ?_⟩
    rw [same]
    exact numbers
  made span form shows := sim.made span form shows.1
  node {s c} span form shows := by
    obtain ⟨shows, numbers⟩ := shows
    refine ⟨sim.node span form shows, ?_⟩
    change (s.made ++ [(TokenStream.node span form s.place).1]).map _ = _
    rw [List.map_append, numbers, sim.made span form shows, Cursor.numbered, List.range_succ,
      List.map_append]
    rfl

/-- A log makes no difference to what is read. It ends with the program, and in front of that the
    nodes stand in the order of their numbers. -/
theorem readProgram_logged {s : σ} {c : Cursor} (shows : sim.Shows s c) (first : c.nextId = 0) :
    let run := TokenStream.readProgram (⟨s, []⟩ : Logged σ)
    run.1 = (TokenStream.readProgram s).1 ∧
      run.2.made.map (·.id) = (List.range ((topLevel c.rest c).nextId + 1)).map sim.τ.number ∧
      run.2.made.getLast? = some run.1.program := by
  intro run
  have start : sim.logged.Shows (⟨s, []⟩ : Logged σ) c := by
    refine ⟨shows, ?_⟩
    rw [first]
    rfl
  obtain ⟨read, last, -, numbers⟩ := sim.logged.readProgram_shows start
  exact ⟨read.trans (sim.readProgram_shows shows).1.symm, numbers, List.getLast?_concat⟩

end Simulation

/-- The nodes that are made while a program is read: there is one for each number up to that of the
    program, which is made last. -/
theorem parse_logged (tokens : List Token) :
    let run := TokenStream.readProgram (⟨Tape.ofTokens tokens, []⟩ : Logged Tape)
    run.1 = parse tokens ∧
      run.2.made.map (·.id) = List.range ((parse tokens).program.id + 1) ∧
      run.2.made.getLast? = some (parse tokens).program := by
  intro run
  obtain ⟨behind, first, shows⟩ := Tape.shows_ofTokens tokens
  let sim := Tape.simulation (closed tokens) behind
  obtain ⟨read, numbers, last⟩ := sim.readProgram_logged shows rfl
  have id : (parse tokens).program.id = _ :=
    congrArg (·.program.id) (sim.readProgram_shows shows).1
  refine ⟨read, ?_, last.trans (congrArg (some ·.program) read)⟩
  rw [numbers, id]
  exact List.map_id _

end TekLang
