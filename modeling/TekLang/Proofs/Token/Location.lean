import TekLang.Proofs.Token.Coverage

/-!
# Where a word stands

A word is the stretch of the text that its span names: the span lies on one line of the text, holds
at least one character, and the characters of the line from its start up to its end spell the word.
A reader of bytes comes to the same places if only the first byte of a character moves the column,
and the bytes between them are those of the word: no character is cut in two.

What carries the induction over the characters is that the word that is being read is the end of the
text so far, and that a settled word stays a part of it.
-/

namespace TekLang

namespace Position

/-- The place behind a byte of a text. A line feed ends its line, and a byte that goes on with a
    character moves nothing. -/
def afterByte (place : Position) (b : UInt8) : Position :=
  if b = 10 then ⟨place.line + 1, 0⟩
  else if b &&& 0xC0 ≠ 0x80 then ⟨place.line, place.column + 1⟩
  else place

/-- The place behind bytes. -/
def behindBytes (place : Position) (bytes : ByteArray) : Position :=
  bytes.data.toList.foldl afterByte place

/-- A byte that goes on with a character has its highest bit set and the next one not. -/
theorem goesOn_iff (b : UInt8) : b &&& 0xC0 = 0x80 ↔ 128 ≤ b.toNat ∧ b.toNat < 192 := by
  have all : ∀ b : Fin 256, (UInt8.ofNat b.val) &&& 0xC0 = 0x80 ↔ 128 ≤ b.val ∧ b.val < 192 := by
    decide +kernel
  have here := all ⟨b.toNat, b.toNat_lt⟩
  rwa [UInt8.ofNat_toNat] at here

/-- A byte is not a line feed if it is none of the plain characters. -/
theorem ne_feed {n : Nat} (low : 128 ≤ n) (high : n < 256) : UInt8.ofNat n ≠ 10 := by
  intro same
  have number : n = (10 : UInt8).toNat := by rw [← same, UInt8.toNat_ofNat_of_lt' high]
  have ten : (10 : UInt8).toNat = 10 := rfl
  omega

theorem afterByte_goesOn (place : Position) (n : Nat) :
    place.afterByte (UInt8.ofNat (n % 64 + 128)) = place := by
  have high : n % 64 + 128 < 256 := by omega
  have goesOn : UInt8.ofNat (n % 64 + 128) &&& 0xC0 = 0x80 := by
    rw [goesOn_iff, UInt8.toNat_ofNat_of_lt' high]
    omega
  rw [afterByte, if_neg (ne_feed (by omega) high), if_neg (not_not.2 goesOn)]

theorem afterByte_begins (place : Position) {n : Nat} (low : 192 ≤ n) (high : n < 256) :
    place.afterByte (UInt8.ofNat n) = ⟨place.line, place.column + 1⟩ := by
  have begins : ¬ UInt8.ofNat n &&& 0xC0 = 0x80 := by
    rw [goesOn_iff, UInt8.toNat_ofNat_of_lt' high]
    omega
  rw [afterByte, if_neg (ne_feed (by omega) high), if_pos begins]

/-- The byte of a plain character moves as the character does. -/
theorem afterByte_plain (place : Position) {c : Char} (plain : c.val.toNat ≤ 127) :
    place.afterByte (UInt8.ofNat c.val.toNat) = place.after c := by
  have number : (UInt8.ofNat c.val.toNat).toNat = c.val.toNat :=
    UInt8.toNat_ofNat_of_lt' (show c.val.toNat < 256 by omega)
  have begins : ¬ UInt8.ofNat c.val.toNat &&& 0xC0 = 0x80 := by
    rw [goesOn_iff, number]
    omega
  have feed : UInt8.ofNat c.val.toNat = 10 ↔ c = '\n' := by
    rw [← UInt8.toNat_inj, number, ← Char.val_inj, ← UInt32.toNat_inj]
    rfl
  rw [afterByte, after, if_pos begins]
  exact if_congr feed rfl rfl

/-- The bytes of a character move as the character does. -/
theorem behindBytes_char (place : Position) (c : Char) :
    (String.utf8EncodeChar c).foldl afterByte place = place.after c := by
  by_cases plain : c.val.toNat ≤ 127
  · have encoded : String.utf8EncodeChar c = [UInt8.ofNat c.val.toNat] := if_pos plain
    rw [encoded]
    exact place.afterByte_plain plain
  · have noFeed : c ≠ '\n' := by
      rintro rfl
      exact plain (by decide)
    rw [after, if_neg noFeed, String.utf8EncodeChar]
    simp only [plain, if_false]
    split_ifs
    all_goals
      simp only [List.foldl_cons, List.foldl_nil, afterByte_goesOn]
      exact place.afterByte_begins (by omega) (by omega)

theorem behindBytes_append (place : Position) (first second : ByteArray) :
    place.behindBytes (first ++ second) = (place.behindBytes first).behindBytes second := by
  simp [behindBytes]

/-- Who reads the bytes of a text comes to the same place as who reads its characters. -/
theorem behindBytes_toByteArray (place : Position) (text : String) :
    place.behindBytes text.toByteArray = place.behind text.toList := by
  have run (cs : List Char) (place : Position) :
      place.behindBytes cs.utf8Encode = place.behind cs := by
    induction cs generalizing place with
    | nil => rfl
    | cons c cs ih =>
      rw [List.utf8Encode_cons, behindBytes_append, ih, List.utf8Encode_singleton]
      have first : place.behindBytes (String.utf8EncodeChar c).toByteArray = place.after c := by
        rw [behindBytes, List.data_toByteArray]
        exact place.behindBytes_char c
      rw [first]
      rfl
  rw [← run, String.utf8Encode_toList]

theorem behind_append (place : Position) (cs ds : List Char) :
    place.behind (cs ++ ds) = (place.behind cs).behind ds := List.foldl_append

/-- Characters of one line move the column alone. -/
theorem behind_sameLine (place : Position) {cs : List Char} (sameLine : '\n' ∉ cs) :
    place.behind cs = ⟨place.line, place.column + cs.length⟩ := by
  induction cs generalizing place with
  | nil => rfl
  | cons c cs ih =>
    obtain ⟨other, sameLine⟩ := List.ne_and_not_mem_of_not_mem_cons sameLine
    have first : place.after c = ⟨place.line, place.column + 1⟩ := if_neg other.symm
    rw [behind, List.foldl_cons, first]
    refine (ih _ sameLine).trans ?_
    rw [List.length_cons, Nat.add_assoc, Nat.add_comm 1]

end Position

section Lines

/-- Lines in front of a text are its first lines. -/
theorem splitOn_lines_append {lines : List (List Char)} (whole : ∀ line ∈ lines, '\n' ∉ line)
    (cs : List Char) :
    (lines.flatMap (· ++ ['\n']) ++ cs).splitOn '\n' = lines ++ cs.splitOn '\n' := by
  induction lines with
  | nil => rfl
  | cons line lines ih =>
    obtain ⟨first, others⟩ := List.forall_mem_cons.1 whole
    rw [List.flatMap_cons, List.append_assoc, List.append_assoc, List.singleton_append,
      List.splitOn_append_cons_self_of_not_mem first, ih others, List.cons_append]

/-- Characters of one line in front of a text belong to its first line. -/
theorem splitOn_sameLine_append {left : List Char} (sameLine : '\n' ∉ left) (cs : List Char) :
    (left ++ cs).splitOn '\n' = (cs.splitOn '\n').modifyHead (left ++ ·) := by
  induction left with
  | nil =>
    obtain ⟨line, lines, split⟩ := List.exists_cons_of_ne_nil (List.splitOn_ne_nil '\n' cs)
    rw [List.nil_append, split]
    rfl
  | cons c left ih =>
    obtain ⟨other, sameLine⟩ := List.ne_and_not_mem_of_not_mem_cons sameLine
    have noFeed : ¬ (c == '\n') = true := fun same => other (eq_of_beq same).symm
    rw [List.cons_append, List.splitOn_cons_eq_if_modifyHead, if_neg noFeed, ih sameLine,
      List.modifyHead_modifyHead]
    rfl

/-- Characters are whole lines and the beginning of one more, and the place behind them counts
    both. -/
theorem exists_lines_behind (cs : List Char) : ∃ (lines : List (List Char)) (left : List Char),
    cs = lines.flatMap (· ++ ['\n']) ++ left ∧ (∀ line ∈ lines, '\n' ∉ line) ∧ '\n' ∉ left ∧
      Position.origin.behind cs = ⟨lines.length, left.length⟩ := by
  induction cs using List.reverseRecOn with
  | nil => exact ⟨[], [], rfl, List.forall_mem_nil _, List.not_mem_nil, rfl⟩
  | append_singleton cs c ih =>
    obtain ⟨lines, left, rfl, whole, sameLine, place⟩ := ih
    rw [Position.behind_append, place]
    by_cases feed : c = '\n'
    · subst feed
      refine ⟨lines ++ [left], [], by simp, ?_, List.not_mem_nil, ?_⟩
      · exact List.forall_mem_append.2 ⟨whole, List.forall_mem_singleton.2 sameLine⟩
      · simp [Position.behind, Position.after]
    · refine ⟨lines, left ++ [c], by simp, whole, ?_, ?_⟩
      · intro there
        rcases List.mem_append.1 there with there | there
        · exact sameLine there
        · exact feed (List.mem_singleton.1 there).symm
      · simp [Position.behind, Position.after, feed]

end Lines

/-- The token spells a part of the text, in one line, and its span names that part. -/
structure Token.StandsIn (t : Token) (text : List Char) : Prop where
  visible : t.lexeme.toList ≠ []
  sameLine : '\n' ∉ t.lexeme.toList
  place : ∃ front back, text = front ++ t.lexeme.toList ++ back ∧
    t.span = ⟨Position.origin.behind front, Position.origin.behind (front ++ t.lexeme.toList)⟩

theorem Token.StandsIn.append {t : Token} {text : List Char} (stands : t.StandsIn text)
    (more : List Char) : t.StandsIn (text ++ more) where
  visible := stands.visible
  sameLine := stands.sameLine
  place := by
    obtain ⟨front, back, split, span⟩ := stands.place
    refine ⟨front, back ++ more, ?_, span⟩
    rw [split, List.append_assoc _ back]

/-- What of a word has been read and is not yet part of its spelling. -/
def Shape.pending : Shape → List Char
  | .numberDot _ => ['.']
  | _ => []

/-- The word that is being read is the end of the text so far. -/
structure Lexeme.StandsLast (l : Lexeme) (text : List Char) : Prop where
  visible : l.spelling.toList ≠ []
  sameLine : '\n' ∉ l.spelling.toList
  place : ∃ front, text = front ++ l.spelling.toList ++ l.shape.pending ∧
    l.start = Position.origin.behind front ∧ ∀ dot, l.shape = .numberDot dot →
      dot = Position.origin.behind (front ++ l.spelling.toList)

namespace Lexeme

theorem standsLast_ofChar (text : List Char) {c : Char} (opens : OpensWord c) :
    (ofChar (Position.origin.behind text) c).StandsLast (text ++ [c]) where
  visible := by simp [ofChar]
  sameLine := by simpa [ofChar] using opens.2.2.2.1.symm
  place := by
    refine ⟨text, ?_, rfl, fun dot shape => absurd shape (Shape.ofChar_ne_numberDot c dot)⟩
    have begins := Shape.begins_ofChar c
    unfold ofChar
    generalize Shape.ofChar c = shape at begins
    cases begins <;> simp [Shape.pending]

/-- A word that goes on with a character is the end of the text with it. -/
theorem StandsLast.extend {l longer : Lexeme} {text : List Char} {c : Char}
    (last : l.StandsLast text)
    (extended : l.extend? (Position.origin.behind text) c = some longer) :
    longer.StandsLast (text ++ [c]) := by
  have noFeed : '\n' ≠ c := by
    rintro rfl
    rw [extend?_feed] at extended
    cases extended
  obtain ⟨front, split, start, dots⟩ := last.place
  -- All of a word but a number with a dot behind it is spelt, and so is what it goes on with.
  have push {shape : Shape} (spelt : l.shape.pending = []) (plain : shape.pending = [])
      (noDot : ∀ dot, shape ≠ .numberDot dot) : (l.push c shape).StandsLast (text ++ [c]) := by
    refine ⟨by simp [Lexeme.push], by simpa [Lexeme.push] using ⟨last.sameLine, noFeed⟩, front, ?_,
      start, fun dot same => absurd same (noDot dot)⟩
    simp [Lexeme.push, split, spelt, plain]
  cases grows_of_extend? extended with
  | word shape | number shape | withEqual shape | quoted _ shape | closed shape =>
    exact push (by rw [shape]; rfl) rfl fun _ => Shape.noConfusion
  | dot shape dot =>
    have spelt : text = front ++ l.spelling.toList := by
      rw [split, shape]
      exact List.append_nil _
    refine ⟨last.visible, last.sameLine, front, ?_, start, ?_⟩
    · rw [spelt, dot, Shape.pending]
    intro place same
    rw [← spelt]
    exact (Shape.numberDot.inj same).symm
  | fraction shape digit =>
    refine ⟨by simp [Lexeme.push], ?_, front, ?_, start, fun _ => Shape.noConfusion⟩
    · simpa [Lexeme.push] using ⟨last.sameLine, noFeed⟩
    · simp [Lexeme.push, split, shape, Shape.pending]

/-- What a word settles into stands in the text at whose end it stood. -/
theorem StandsLast.settle {l : Lexeme} {text : List Char} (last : l.StandsLast text) :
    ∀ t ∈ tokensOf (l.settle (Position.origin.behind text)), t.StandsIn text := by
  obtain ⟨front, split, start, dots⟩ := last.place
  have whole (kind : TokenKind) (spelt : l.shape.pending = []) :
      Token.StandsIn ⟨kind, l.spelling, ⟨l.start, Position.origin.behind text⟩⟩ text := by
    rw [spelt, List.append_nil] at split
    refine ⟨last.visible, last.sameLine, front, [], by rw [split, List.append_nil], ?_⟩
    rw [start, split]
  intro t there
  cases shape : l.shape with
  | whole | word | number =>
    simp only [Lexeme.settle, shape] at there
    obtain rfl := List.mem_singleton.1 there
    exact whole _ (by rw [shape]; rfl)
  | numberDot dot =>
    have here := dots dot shape
    rw [shape, Shape.pending] at split
    simp only [Lexeme.settle, shape] at there
    rcases List.mem_cons.1 there with rfl | there
    · refine ⟨last.visible, last.sameLine, front, ['.'], split, ?_⟩
      rw [start, here]
    · obtain rfl := List.mem_singleton.1 there
      have spelt : ".".toList = ['.'] := by decide
      refine ⟨?_, ?_, front ++ l.spelling.toList, [], ?_, ?_⟩
      · rw [spelt]
        exact List.cons_ne_nil _ _
      · rw [spelt]
        decide
      · rw [spelt, List.append_nil, split]
      · rw [spelt, here, split]
  | sign alone =>
    cases alone with
    | none =>
      simp only [Lexeme.settle, shape] at there
      cases there
    | some kind =>
      simp only [Lexeme.settle, shape] at there
      obtain rfl := List.mem_singleton.1 there
      exact whole _ (by rw [shape]; rfl)
  | quoted | foreign =>
    simp only [Lexeme.settle, shape] at there
    cases there

end Lexeme

namespace Scan

/-- All words that have been read stand in the text so far, and the last one at its end. -/
structure Locates (s : Scan) (ps : List Piece) (text : List Char) : Prop where
  next : s.next = Position.origin.behind text
  settled : ∀ t ∈ wordsOf (tokensOf ps), t.StandsIn text
  reading : ∀ l, s.place = .insideWord l → l.StandsLast text

variable {s after : Scan} {ps new : List Piece} {text : List Char} {c : Char}

theorem Locates.settleWord (locates : s.Locates ps text) :
    s.settleWord.1.Locates (ps ++ s.settleWord.2) text where
  next := s.next_settleWord.trans locates.next
  settled := by
    by_cases outside : s.Outside
    · rw [settleWord_of_outside outside, List.append_nil]
      exact locates.settled
    · obtain ⟨l, place⟩ := Classical.not_forall.1 outside
      have place := not_not.1 place
      rw [settleWord_of_insideWord place, tokensOf_append, wordsOf_append, locates.next]
      refine List.forall_mem_append.2 ⟨locates.settled, ?_⟩
      intro t there
      exact (locates.reading l place).settle t (List.mem_of_mem_filter there)
  reading := s.outside_settleWord.elim

theorem Locates.consume (locates : s.Locates ps text) (consumed : Consumes c s after new) :
    after.Locates (ps ++ new) (text ++ [c]) where
  next := by
    rw [consumed.next, locates.next, Position.behind_append]
    rfl
  settled := by
    rw [tokensOf_append, wordsOf_append, consumed.wordsOf, List.append_nil]
    exact fun t there => (locates.settled t there).append [c]
  reading l inside := by
    rcases consumed.reading inside with ⟨opens, rfl⟩ | ⟨shorter, place, extended⟩
    · rw [locates.next]
      exact Lexeme.standsLast_ofChar text opens
    · rw [locates.next] at extended
      exact (locates.reading shorter place).extend extended

theorem Locates.step (locates : s.Locates ps text) (c : Char) :
    (s.step c).1.Locates (ps ++ (s.step c).2) (text ++ [c]) := by
  rcases s.step_cases c with consumed | ⟨after, new, consumed, stepped⟩
  · exact locates.consume consumed
  · rw [stepped, ← List.append_assoc]
    exact locates.settleWord.consume consumed

theorem Locates.read (locates : s.Locates ps text) (cs : List Char) :
    (s.read cs).1.Locates (ps ++ (s.read cs).2) (text ++ cs) := by
  induction cs generalizing s ps text with
  | nil =>
    rw [Scan.read, List.append_nil, List.append_nil]
    exact locates
  | cons c cs ih =>
    rw [Scan.read, ← List.append_assoc, List.append_cons]
    exact ih (locates.step c)

end Scan

namespace Token.StandsIn

variable {t : Token} {source : String}

theorem spelt (stands : t.StandsIn source.toList) : ∃ line,
    (source.toList.splitOn '\n')[t.span.start.line]? = some line ∧
      t.span.stop.column ≤ line.length ∧
      (line.take t.span.stop.column).drop t.span.start.column = t.lexeme.toList := by
  obtain ⟨front, back, split, span⟩ := stands.place
  obtain ⟨lines, left, rfl, whole, sameLine, place⟩ := exists_lines_behind front
  obtain ⟨rest, others, tail⟩ := List.exists_cons_of_ne_nil (List.splitOn_ne_nil '\n' back)
  have found : source.toList.splitOn '\n' =
      lines ++ (left ++ (t.lexeme.toList ++ rest)) :: others := by
    rw [split, List.append_assoc, List.append_assoc, splitOn_lines_append whole,
      splitOn_sameLine_append sameLine, splitOn_sameLine_append stands.sameLine, tail]
    rfl
  rw [Position.behind_append _ (_ ++ _), place, Position.behind_sameLine _ stands.sameLine] at span
  rw [span, found]
  refine ⟨left ++ (t.lexeme.toList ++ rest), by simp, by simp, ?_⟩
  rw [← List.append_assoc, ← List.length_append, List.take_left, List.drop_left]

theorem bytes (stands : t.StandsIn source.toList) : ∃ first last : source.Pos, first < last ∧
    Position.origin.behindBytes (source.toByteArray.extract 0 first.offset.byteIdx) =
      t.span.start ∧
    Position.origin.behindBytes (source.toByteArray.extract 0 last.offset.byteIdx) =
      t.span.stop ∧
    source.toByteArray.extract first.offset.byteIdx last.offset.byteIdx =
      t.lexeme.toByteArray := by
  obtain ⟨front, back, split, span⟩ := stands.place
  have parts : source = String.ofList front ++ t.lexeme ++ String.ofList back := by
    refine String.ext ?_
    simpa using split
  have front_eq : source = String.ofList front ++ (t.lexeme ++ String.ofList back) := by
    rw [parts, String.append_assoc]
  have first := String.Pos.splits_ofEqAppend front_eq
  have last := String.Pos.splits_ofEqAppend parts
  have visible : t.lexeme ≠ "" := by
    intro same
    exact stands.visible (String.toList_eq_nil_iff.2 same)
  refine ⟨.ofEqAppend front_eq, .ofEqAppend parts, ?_, ?_, ?_, ?_⟩
  · exact (first.lt_iff_exists_eq_append last).2 ⟨t.lexeme, visible, rfl, rfl⟩
  · rw [← first.toByteArray_left_eq, Position.behindBytes_toByteArray, span, String.toList_ofList]
  · rw [← last.toByteArray_left_eq, Position.behindBytes_toByteArray, span, String.toList_append,
      String.toList_ofList]
  · have bytes : source.toByteArray = (String.ofList front).toByteArray ++
        (t.lexeme.toByteArray ++ (String.ofList back).toByteArray) := by
      rw [← String.toByteArray_append, ← String.toByteArray_append, ← front_eq]
    have behind : (String.ofList front ++ t.lexeme).utf8ByteSize =
        (String.ofList front).toByteArray.size + t.lexeme.toByteArray.size :=
      String.utf8ByteSize_append
    rw [first.offset_eq_rawEndPos, last.offset_eq_rawEndPos, bytes]
    change ByteArray.extract _ ((String.ofList front).toByteArray.size + 0)
      (String.ofList front ++ t.lexeme).utf8ByteSize = _
    rw [behind, ByteArray.extract_append_size_add]
    exact ByteArray.extract_append_eq_left rfl

end Token.StandsIn

-- Two of the characters take two bytes each and one column each.
example : (wordsOf (lex "é 'ü\\ö'.a\nb").tokens).map (fun t => (t.lexeme, t.span)) =
    [("'ü\\ö'", ⟨⟨0, 2⟩, ⟨0, 7⟩⟩), (".", ⟨⟨0, 7⟩, ⟨0, 8⟩⟩), ("a", ⟨⟨0, 8⟩, ⟨0, 9⟩⟩),
      ("b", ⟨⟨1, 0⟩, ⟨1, 1⟩⟩)] := by decide +kernel

end TekLang
