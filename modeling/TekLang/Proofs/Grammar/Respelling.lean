import TekLang.Proofs.Grammar.Simulation

/-!
# Other spellings, other numbers

A translation of a cursor puts the other spellings and the other numbers in its place. The cursor
then shows the one that it came from, so a `Simulation` carries the translation from one token to
constructs and to whole programs.
-/

namespace TekLang

instance : Translatable Cursor where
  translated τ c :=
    ⟨translated τ c.rest, translated τ c.stop, translated τ c.last, τ.number c.nextId⟩

/-- An outcome in which what came out is translated. -/
instance {α : Type} [Translatable α] : Translatable (EStateM.Result SyntaxError Cursor α) where
  translated τ
    | .ok a c => .ok (translated τ a) (translated τ c)
    | .error e c => .error e (translated τ c)

instance : Translatable TopLevel where
  translated τ top := ⟨translated τ top.body, top.errors, τ.number top.nextId⟩

variable {τ : Translation}

/-! ### What is asked of a cursor -/

namespace Cursor

theorem nextKind_translated (c : Cursor) : (translated τ c).nextKind = c.nextKind := by
  obtain ⟨rest, stop, last, nextId⟩ := c
  cases rest <;> rfl

theorem upcoming_translated (c : Cursor) : (translated τ c).upcoming = translated τ c.upcoming := by
  obtain ⟨rest, stop, last, nextId⟩ := c
  cases rest <;> rfl

theorem atEnd_translated (c : Cursor) : (translated τ c).rest.isEmpty = c.rest.isEmpty :=
  List.isEmpty_map

theorem startsBlock_translated (c : Cursor) : (translated τ c).startsBlock = c.startsBlock := by
  have lines : ((translated τ c).rest.dropWhile (·.kind = .newline)).head?.map (·.kind) =
      (c.rest.dropWhile (·.kind = .newline)).head?.map (·.kind) := by
    change ((c.rest.map (translated τ)).dropWhile _).head?.map _ = _
    rw [List.dropWhile_map, List.head?_map, Option.map_map]
    rfl
  rw [startsBlock, startsBlock, nextKind_translated, lines]

theorem advance_translated (c : Cursor) :
    (translated τ c).advance = (translated τ c.advance.1, translated τ c.advance.2) := by
  obtain ⟨rest, stop, last, nextId⟩ := c
  cases rest <;> rfl

theorem numbered_translated (c : Cursor) :
    (translated τ c).numbered = translated τ c.numbered :=
  congrArg (Cursor.mk _ _ _) (τ.number_succ c.nextId).symm

end Cursor

namespace Parser

theorem closesBeforeParen_translated (ts : List Token) (depth : Nat) :
    closesBeforeParen depth (translated τ ts) = closesBeforeParen depth ts := by
  induction ts generalizing depth with
  | nil => rfl
  | cons t ts ih =>
    refine closesBeforeParen_cons rfl ?_ ih depth
    cases ts <;> rfl

theorem startsConstructor_translated (ts : List Token) :
    startsConstructor (translated τ ts) = startsConstructor ts := by
  cases ts with
  | nil => rfl
  | cons t ts => cases ts <;> rfl

end Parser

/-- A translated cursor shows the cursor that it came from. -/
def Translation.simulation (τ : Translation) : Simulation Cursor where
  τ := τ
  Shows s c := s = translated τ c
  nextKind := by
    rintro - c rfl
    exact c.nextKind_translated
  upcoming := by
    rintro - c rfl
    exact c.upcoming_translated
  atEnd := by
    rintro - c rfl
    exact c.atEnd_translated
  last := by
    rintro - c rfl
    rfl
  startsBlock := by
    rintro - c rfl
    exact c.startsBlock_translated
  startsConstructor := by
    rintro - c rfl
    exact Parser.startsConstructor_translated c.rest
  startsGenericCall := by
    rintro - c rfl
    exact Parser.closesBeforeParen_translated c.rest 1
  rounds := by
    rintro - c rfl
    exact Nat.le_of_eq (List.length_map _).symm
  index := by
    rintro - c - c' rfl rfl less same
    change (c'.rest.map _).length = (c.rest.map _).length at same
    rw [List.length_map, List.length_map] at same
    exact Nat.ne_of_lt less same
  token := by
    rintro - c rfl
    exact congrArg Prod.fst c.advance_translated
  advance := by
    rintro - c rfl
    exact congrArg Prod.snd c.advance_translated
  made := by
    rintro - c span form rfl
    rfl
  node := by
    rintro - c span form rfl
    exact c.numbered_translated

/-! ### What is read -/

/-- What is read behind other spellings and numbers is what is read behind the own ones, but with
    the others in it. -/
theorem Simulates.translated {α : Type} [Translatable α] {p q : Parser α}
    (same : Simulates τ.simulation p q) (c : Cursor) :
    q (translated τ c) = translated τ (p c) := by
  have agrees := same _ c rfl
  generalize p c = r at agrees ⊢
  generalize q (Translatable.translated τ c) = r' at agrees ⊢
  cases agrees with
  | ok a shows =>
    obtain rfl := shows
    rfl
  | error e shows =>
    obtain rfl := shows
    rfl

theorem Cursor.translated_refl (c : Cursor) : translated .refl c = c :=
  congrArg (Cursor.mk · _ _ _) (List.map_id c.rest)

theorem map_translated_refl (ns : List Node) : translated .refl ns = ns := by
  refine (List.map_congr_left fun n _ => n.translated_refl).trans ?_
  exact List.map_id ns

/-- A loop over the stream of cursors reads what the loop over the list reads. -/
theorem declarations_cursor (rounds : List Token) {c : Cursor}
    (enough : c.rest.length ≤ rounds.length) :
    let read := TokenStream.declarations rounds c
    topLevel c.rest c = ⟨read.body, read.errors, read.place.nextId⟩ := by
  intro read
  have shows : Translation.refl.simulation.ShowsAhead c c := ⟨c.last, c.translated_refl.symm⟩
  obtain ⟨body, errors, last, place⟩ :=
    Translation.refl.simulation.declarations_shows rounds c.rest shows enough (Nat.le_refl _)
  change read.body = translated .refl _ at body
  change read.place = translated .refl _ at place
  rw [map_translated_refl] at body
  rw [body, errors, place]
  rfl

/-- The top of a program is read from translated tokens as it is from its own. -/
theorem topLevel_translated (c : Cursor) :
    topLevel (translated τ c.rest) (translated τ c) = translated τ (topLevel c.rest c) := by
  have shows : τ.simulation.ShowsAhead (translated τ c) c := ⟨c.last, rfl⟩
  obtain ⟨body, errors, last, place⟩ :=
    τ.simulation.declarations_shows c.rest c.rest shows (Nat.le_refl _) (Nat.le_refl _)
  have enough : (translated τ c).rest.length ≤ c.rest.length := Nat.le_of_eq (List.length_map _)
  have own := declarations_cursor c.rest enough
  dsimp only at own
  rw [body, errors, place] at own
  exact own

end TekLang
