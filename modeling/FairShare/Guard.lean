/-!
A value that is read by many or written by one.  Guards are numbered in the order in which they were
asked for, whether or not they were given.
-/

namespace FairShare

/-- A guarded value and the guards that are held. -/
structure Guarded (α : Type) where
  value : α
  readers : List Nat := []
  writer : Option Nat := none
  asked : Nat := 0

namespace Guarded

variable {α : Type}

/-- Asks for a shared guard, which a writer prevents. -/
def tryRead (g : Guarded α) : Guarded α × Option α :=
  let next := { g with asked := g.asked + 1 }
  if g.writer.isSome then (next, none)
  else ({ next with readers := g.asked :: g.readers }, some g.value)

/-- Asks for the exclusive guard, which any guard prevents, and replaces the value if asked to. -/
def tryWrite (g : Guarded α) (replacement : Option α) : Guarded α × Option α :=
  let next := { g with asked := g.asked + 1 }
  if g.writer.isSome || !g.readers.isEmpty then (next, none)
  else ({ next with writer := some g.asked, value := replacement.getD g.value }, some g.value)

/-- Gives up a guard; tells whether it was held. -/
def release (g : Guarded α) (guard : Nat) : Guarded α × Bool :=
  if guard ∈ g.readers then ({ g with readers := g.readers.filter (· ≠ guard) }, true)
  else if g.writer = some guard then ({ g with writer := none }, true)
  else (g, false)

/-- Reads the value at once, which a writer prevents. -/
def read? (g : Guarded α) : Option α := if g.writer.isSome then none else some g.value

/-- Replaces the value at once, which any guard prevents; tells whether it did. -/
def write (g : Guarded α) (value : α) : Guarded α × Bool :=
  if g.writer.isSome || !g.readers.isEmpty then (g, false) else ({ g with value }, true)

end Guarded
end FairShare
