import RhypeDb.Query.Literal

/-! The resource governor of one query: clamps, a budget of examined rows, and a deadline that is
held against a clock. A check is a computation over the meter; it fails closed. -/

namespace RhypeDb.Query

/-- Zero is no limit; durations are in nanoseconds. -/
structure GovernorLimits where
  maxLimit : Nat
  maxRowsScanned : Nat
  maxDepth : Nat
  maxResultRows : Nat
  maxDuration : Nat
  deriving DecidableEq, Repr

def GovernorLimits.unlimited : GovernorLimits :=
  { maxLimit := 0, maxRowsScanned := 0, maxDepth := 0, maxResultRows := 0, maxDuration := 0 }

/-- `clock n` is what the query's `n`-th look at the clock shows. -/
structure Governor where
  limits : GovernorLimits
  deadline : Option Nat
  enabled : Bool
  clock : Nat → Nat

/-- The rows examined so far, saturating at the largest `u64`, and the looks at the clock. -/
structure Meter where
  rowsExamined : Nat
  looks : Nat
  deriving DecidableEq, Repr

def Meter.start : Meter := { rowsExamined := 0, looks := 0 }

/-- A computation that may be refused, and counts what it does. -/
abbrev Metered := ExceptT QueryError (StateM Meter)

namespace Governor

def disabled (clock : Nat → Nat) : Governor :=
  { limits := .unlimited, deadline := none, enabled := false, clock }

variable (g : Governor)

def clampLimit (requested : Nat) : Nat :=
  if g.enabled ∧ g.limits.maxLimit ≠ 0 then min requested g.limits.maxLimit else requested

def scanCap : Option Nat :=
  if g.enabled ∧ g.limits.maxRowsScanned ≠ 0 then some g.limits.maxRowsScanned else none

def remainingScanBudget (meter : Meter) : Option Nat :=
  g.scanCap.map fun cap => cap - meter.rowsExamined

def rowsExceededError : QueryError :=
  .resourceLimitExceeded ("query examined more than " ++ toString g.limits.maxRowsScanned ++
    " rows; narrow it with an indexed filter or a smaller .limit()")

def deadlineError : QueryError :=
  .resourceLimitExceeded ("query exceeded its " ++ toString (g.limits.maxDuration / 1000000) ++
    " ms time budget")

def checkDeadline : Metered Unit :=
  match g.deadline with
  | none => return
  | some deadline => do
    let meter ← get
    set { meter with looks := meter.looks + 1 }
    if deadline ≤ g.clock meter.looks then throw g.deadlineError

def charge (n : Nat) : Metered Unit :=
  if !g.enabled then return
  else do
    let meter ← get
    let total := min (meter.rowsExamined + n) (2 ^ 64 - 1)
    set { meter with rowsExamined := total }
    if g.limits.maxRowsScanned ≠ 0 ∧ g.limits.maxRowsScanned < total then throw g.rowsExceededError
    else g.checkDeadline

def checkExhausted : Metered Unit := do
  let meter ← get
  if g.enabled ∧ g.limits.maxRowsScanned ≠ 0 ∧ g.limits.maxRowsScanned < meter.rowsExamined then
    throw g.rowsExceededError
  else g.checkDeadline

def checkDepth (depth : Nat) : Metered Unit :=
  if g.enabled ∧ g.limits.maxDepth ≠ 0 ∧ g.limits.maxDepth < depth then
    throw (.resourceLimitExceeded ("query traverses more than " ++ toString g.limits.maxDepth ++
      " relationship hops"))
  else return

def checkResultRows (rows : Nat) : Metered Unit :=
  if g.enabled ∧ g.limits.maxResultRows ≠ 0 ∧ g.limits.maxResultRows < rows then
    throw (.resourceLimitExceeded ("query would return more than " ++
      toString g.limits.maxResultRows ++ " rows; page it with .offset()/.limit()"))
  else return

end Governor

end RhypeDb.Query
