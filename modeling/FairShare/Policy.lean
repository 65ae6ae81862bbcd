import FairShare.Ident
import FairShare.Resource

/-!
Scheduling policies.  A policy splits a share among sibling queues and compares siblings; it sees
each of them as a `Standing`, with the queues below it.  The tree of queues hands out the numbers of
a policy and does not interpret them.
-/

namespace FairShare

inductive Scope where
  | root
  | intermediate
  | leaf
deriving DecidableEq, Repr

def Scope.word : Scope → String
  | root => "root"
  | intermediate => "intermediate"
  | leaf => "leaf"

structure Pacing where
  /-- When usage last reached the smaller of the guaranteed minimum and the demand. -/
  atMinShare : Nat := 0
  /-- When usage last reached the smaller of the threshold's part of the fair share and the
  demand. -/
  atFairShare : Nat := 0
deriving DecidableEq, Repr

structure Standing where
  name : String
  scope : Scope
  weight : Float
  demand : Resource
  usage : Resource
  fairShare : Resource
  steadyShare : Resource
  minShare : Resource
  maxShare : Option Resource
  runnable : Nat
  pacing : Pacing
  /-- The attempts that the queue itself holds, in the order in which they were submitted. -/
  attempts : List AttemptId
  /-- The fair share and the weight of the parent queue, if there is one. -/
  parent : Option (Resource × Float)
  children : List Standing

/-- A strategy to split a share and to order siblings. -/
structure Policy where
  name : String
  appliesTo : Scope → Bool
  /-- Splits a fair share.  The shares go to the siblings in order; siblings without a share keep
  theirs. -/
  split : Resource → List Standing → List Resource
  /-- Splits a steady fair share likewise. -/
  splitSteady : Resource → List Standing → List Resource
  /-- The lesser sibling is offered a container first; the greatest gives one up. -/
  compare : Standing → Standing → Ordering

instance : Inhabited Policy := ⟨⟨"", fun _ => true, fun _ _ => [], fun _ _ => [], fun _ _ => .eq⟩⟩

end FairShare
