import TekLang.Proofs.Grammar.Cursor
import TekLang.Proofs.Outcome

/-!
# Running a parser

How the parts that every parser is put together from run from a given cursor. Each statement here
is an equation or tells exactly when a run succeeds, so that whoever reads a construct can take its
reader apart without opening the definitions of `Grammar/Stream`.
-/

namespace TekLang

namespace Cursor

/-- The cursor behind the token `t`, in front of which it stands. -/
def behind (c : Cursor) (t : Token) (rest : List Token) : Cursor := { c with rest, last := t }

@[simp] theorem rest_behind (c : Cursor) (t : Token) (rest : List Token) :
    (c.behind t rest).rest = rest := rfl

/-- The cursor at the same place once another node has been made. -/
def numbered (c : Cursor) : Cursor := { c with nextId := c.nextId + 1 }

theorem nextKind_of_rest_cons {c : Cursor} {t : Token} {rest : List Token}
    (h : c.rest = t :: rest) : c.nextKind = t.kind := by
  unfold nextKind
  rw [h]

theorem nextKind_of_rest_nil {c : Cursor} (h : c.rest = []) : c.nextKind = .eof := by
  unfold nextKind
  rw [h]

theorem upcoming_of_rest_cons {c : Cursor} {t : Token} {rest : List Token}
    (h : c.rest = t :: rest) : c.upcoming = t := by
  unfold upcoming
  rw [h, List.headD_cons]

end Cursor

/-! ### What is asked of a cursor -/

namespace TokenStream

variable (c : Cursor)

@[simp] theorem last_cursor : last c = c.last := rfl

@[simp] theorem rounds_cursor : rounds c = c.rest := rfl

@[simp] theorem startsBlock_cursor : startsBlock c = c.startsBlock := rfl

@[simp] theorem startsConstructor_cursor :
    startsConstructor c = Parser.startsConstructor c.rest := rfl

@[simp] theorem startsGenericCall_cursor :
    startsGenericCall c = Parser.closesBeforeParen 1 c.rest := rfl

@[simp] theorem endsStatement_cursor : endsStatement c = c.endsStatement := rfl

end TokenStream

namespace Parser

variable {α : Type}

theorem get_bind (f : Cursor → Parser α) (c : Cursor) : (get >>= f) c = f c c := rfl

theorem nextKind_apply (c : Cursor) : nextKind c = .ok c.nextKind c := rfl

theorem upcoming_apply (c : Cursor) : upcoming c = .ok c.upcoming c := rfl

theorem typeRef_apply (c : Cursor) : typeRef c = typeWithin c.rest c := rfl

theorem construct_apply (k : Construct) (c : Cursor) :
    construct k c = constructWithin c.rest k c := rfl

theorem node_apply (span : Span) (form : Form Node) (c : Cursor) :
    node span form c = .ok ⟨c.nextId, span, form⟩ c.numbered := rfl

theorem advance_apply (c : Cursor) : advance c = .ok c.advance.1 c.advance.2 := rfl

theorem atEnd_apply (c : Cursor) : atEnd c = .ok c.rest.isEmpty c := rfl

theorem advance_of_rest_cons {c : Cursor} {t : Token} {rest : List Token}
    (h : c.rest = t :: rest) : advance c = .ok t (c.behind t rest) := by
  rw [advance_apply, Cursor.advance, h]
  rfl

theorem advance_of_rest_nil {c : Cursor} (h : c.rest = []) : advance c = .ok c.last c := by
  rw [advance_apply, Cursor.advance, h]

theorem atEnd_of_rest_cons {c : Cursor} {t : Token} {rest : List Token}
    (h : c.rest = t :: rest) : atEnd c = .ok false c := by
  rw [atEnd_apply, h]
  rfl

theorem atEnd_of_rest_nil {c : Cursor} (h : c.rest = []) : atEnd c = .ok true c := by
  rw [atEnd_apply, h]
  rfl

theorem accept_of_kind {c : Cursor} {t : Token} {rest : List Token} {kind : TokenKind}
    (h : c.rest = t :: rest) (same : t.kind = kind) :
    accept kind c = .ok true (c.behind t rest) := by
  have next : c.nextKind = kind := (Cursor.nextKind_of_rest_cons h).trans same
  unfold accept
  rw [bind_of_ok (nextKind_apply c), if_pos next, bind_of_ok (advance_of_rest_cons h)]
  rfl

theorem accept_of_ne {c : Cursor} {kind : TokenKind} (other : c.nextKind ≠ kind) :
    accept kind c = .ok false c := by
  unfold accept
  rw [bind_of_ok (nextKind_apply c), if_neg other]
  rfl

theorem expectAs_of_kind {c : Cursor} {t : Token} {rest : List Token} {kind : TokenKind}
    (h : c.rest = t :: rest) (same : t.kind = kind) (wanted : Wanted) (setting : Setting) :
    expectAs kind wanted setting c = .ok t (c.behind t rest) := by
  have next : c.nextKind = kind := (Cursor.nextKind_of_rest_cons h).trans same
  unfold expectAs
  rw [bind_of_ok (nextKind_apply c), if_pos next]
  exact advance_of_rest_cons h

theorem comma_of_close {c : Cursor} {close : TokenKind} (closes : c.nextKind = close)
    (setting : Setting) : comma close setting c = .ok () c := by
  unfold comma
  rw [bind_of_ok (nextKind_apply c), if_neg (not_not_intro closes)]
  rfl

theorem comma_of_kind {c : Cursor} {t : Token} {rest : List Token} {close : TokenKind}
    (h : c.rest = t :: rest) (same : t.kind = .comma) (other : close ≠ .comma)
    (setting : Setting) : comma close setting c = .ok () (c.behind t rest) := by
  have goesOn : c.nextKind ≠ close := by
    rw [Cursor.nextKind_of_rest_cons h, same]
    exact other.symm
  unfold comma
  rw [bind_of_ok (nextKind_apply c), if_pos goesOn, bind_of_ok (expectAs_of_kind h same _ _)]
  rfl

theorem unlessAtEnd_of_rest_cons {c : Cursor} {t : Token} {rest : List Token}
    (h : c.rest = t :: rest) (wanted : Wanted) (item : Parser α) :
    unlessAtEnd wanted item c = item c := by
  unfold unlessAtEnd
  rw [bind_of_ok (atEnd_of_rest_cons h)]
  rfl

end Parser

end TekLang
