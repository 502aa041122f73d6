/-!
# Faults

An operation asked for something that is not there has no answer at all, not
even a negative one. Such a request is a **fault**. Faults are kept apart from
the errors a user can make: those are reported with a message, a fault is
not.
-/

namespace Arbor

/-- What an operation can find missing. -/
inductive Fault where
  /-- A node whose rule has no name: a token of a kind that the grammar refers
  to and does not define. -/
  | namelessRule
  /-- No node where one is needed. -/
  | noNode
  /-- No rule where one is needed. -/
  | noRule
  /-- A name that no production has. -/
  | noProduction
  /-- No file has been parsed. -/
  | noFile
  /-- No project has been loaded. -/
  | noProject
  deriving DecidableEq, Repr

end Arbor
