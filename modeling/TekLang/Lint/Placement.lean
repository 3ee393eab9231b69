import TekLang.Lint.Rule

/-!
# Constructs out of place

Four rules on where things may stand: classes at the top only, control statements inside what they
control, nothing but declarations in the body of a class, and no if with a value but without an
else.
-/

namespace TekLang

namespace ClassPlacement

/-- A class that does not stand at the top. -/
def check (site : Site) : List Finding :=
  match site.node.form with
  | .classDecl .. =>
    if (site.parents.head?.map (·.kind)) = some .program then []
    else [⟨"A class can only be declared at the top level", site.node.span⟩]
  | _ => []

/-- Classes are declared at the top only (`rules::ClassAtTopLevel`). -/
def rule : Rule :=
  ⟨"class-at-top-level", "Report when a class declaration is not at the top level", check⟩

end ClassPlacement

namespace ControlPlacement

/-- What a statement has to stand inside of, and what it is called in reports. -/
structure Requirement where
  owners : List NodeKind
  message : String
deriving DecidableEq, Inhabited, Repr

/-- What a break leaves and a continue goes on with. -/
def loops : List NodeKind := [.forStmt, .whileStmt, .repeatStmt]

/-- What the kinds of control statements require (`illegal_control_statement::PLACEMENTS`). -/
def requirement? : NodeKind → Option Requirement
  | .returnStmt =>
    some ⟨[.functionDecl, .constructor], "You can only place return inside a function"⟩
  | .yieldStmt => some ⟨[.ifExpr], "You can only place yield inside an if expression"⟩
  | .breakStmt => some ⟨loops, "You can only place break inside a loop"⟩
  | .continueStmt => some ⟨loops, "You can only place continue inside a loop"⟩
  | .fallthroughStmt =>
    some ⟨[.switchCase], "You can only place fallthrough inside a switch case"⟩
  | _ => none

/-- No control leads out of a function or a class (`is_boundary`). -/
def isBoundary : NodeKind → Bool
  | .functionDecl | .constructor | .classDecl => true
  | _ => false

/-- Whether one of the given kinds is met on the way out, no later than the first boundary
    (`enclosed_by`). -/
def isEnclosedBy (owners : List NodeKind) : List NodeKind → Bool
  | [] => false
  | kind :: outer =>
    if kind ∈ owners then true
    else if isBoundary kind then false
    else isEnclosedBy owners outer

/-- A control statement that nothing around it owns. -/
def check (site : Site) : List Finding :=
  match requirement? site.node.kind with
  | none => []
  | some r =>
    if isEnclosedBy r.owners (site.parents.map (·.kind)) then []
    else [⟨r.message, site.node.span⟩]

/-- Control statements stand inside what they control (`rules::IllegalControlStatement`). -/
def rule : Rule :=
  ⟨"illegal-control-statement",
    "Report control statements placed outside the construct they control", check⟩

end ControlPlacement

namespace ClassBody

/-- Whether a member of a class is something else than a declaration. -/
def offence? (member : Node) : Option Finding :=
  match member.form with
  | .classMember _ value =>
    if value.category = .declaration then none
    else some ⟨"You can only put declarations in a class body", value.span⟩
  | _ => none

/-- The members of a class that are no declarations. -/
def check (site : Site) : List Finding :=
  match site.node.form with
  | .classDecl _ _ _ _ statics instances => (statics ++ instances).filterMap offence?
  | _ => []

/-- The body of a class holds declarations only (`rules::InvalidClassBody`). -/
def rule : Rule :=
  ⟨"invalid-class-body", "Report statements and expressions inside a class body", check⟩

end ClassBody

namespace IfValue

/-- An if with a value that may go without one. -/
def check (site : Site) : List Finding :=
  match site.node.form with
  | .conditional .value _ _ none =>
    [⟨"An if expression must have an else body", site.node.span⟩]
  | _ => []

/-- An if with a value has one on every way through it (`rules::IllegalIf`). -/
def rule : Rule := ⟨"illegal-if", "Report if expressions without an else body", check⟩

end IfValue

end TekLang
