import Concolic.Formula.Build

/-
  Path constraints: which way each control-flow decision went, and under which
  condition it goes so again.

  A decision lists its outcomes, each with a condition of one bit, and marks the
  one that happened. The conjunction of these describes the path, and replacing
  the last that had an alternative describes a neighbour of the path.
-/

namespace Concolic

/-- One outcome of a branch. -/
structure Branch where
  taken : Bool
  /-- Address of the branching instruction. -/
  source : Address
  target : Address
  /-- One bit, set when the branch goes this way. -/
  constraint : Formula

/-- The outcomes of one control-flow decision. -/
structure PathConstraint where
  branches : List Branch

namespace PathConstraint

/-- Whether the decision could have gone another way. -/
def isMultiple (pc : PathConstraint) : Bool := pc.branches.length > 1

/-- The outcome that happened. -/
def taken? (pc : PathConstraint) : Option Branch := pc.branches.find? Branch.taken

/-- An outcome that did not happen. -/
def other? (pc : PathConstraint) : Option Branch := pc.branches.find? fun branch => !branch.taken

end PathConstraint

namespace Path

/-- The conjunction of a formula and the outcomes that happened. -/
def conjoin (start : Formula) (constraints : List PathConstraint) : Build Formula :=
  constraints.foldlM (fun result pc =>
    match pc.taken? with
    | some branch => Build.and result branch.constraint
    | none => pure result) start

/-- The condition of the whole path: every outcome that happened. -/
def predicate (constraints : List PathConstraint) : Build Formula := do
  let start ← Build.flag true
  conjoin start constraints

/-- The last decision that could have gone another way, after those before it. -/
def lastMultiple? : List PathConstraint → Option (List PathConstraint × PathConstraint)
  | [] => none
  | pc :: rest =>
    match lastMultiple? rest with
    | some (before, last) => some (pc :: before, last)
    | none => if pc.isMultiple then some ([], pc) else none

/-- The condition under which the last decision that could have gone another
way does so, and everything before it happens as it did. -/
def flipLast (constraints : List PathConstraint) : Build (Option Formula) := do
  match lastMultiple? constraints with
  | none => pure none
  | some (before, last) =>
    let start ← Build.flag true
    let path ← conjoin start before
    match last.other? with
    | some branch => some <$> Build.and path branch.constraint
    | none => pure none

end Path

end Concolic
