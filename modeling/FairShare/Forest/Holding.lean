import FairShare.Forest.Basic

/-!
Which queues are held.  A queue is held while someone outside the forest refers to it or a held
queue lists it among its children.  Naming a queue as parent does not hold it.
-/

namespace FairShare.Forest

def isListed (f : Forest) (q : QueueId) : Bool :=
  f.nodes.any fun n => !n.released && n.children.contains q

def releaseOnce (f : Forest) (held : List QueueId) : Forest :=
  { f with
    nodes := f.nodes.mapIdx fun q n =>
      if held.contains q || f.isListed q then n else { n with released := true } }

/-- Releases queues for a number of rounds, since a queue may be held by one that is released. -/
def releaseRounds (f : Forest) (held : List QueueId) : Nat → Forest
  | 0 => f
  | n + 1 => (f.releaseOnce held).releaseRounds held n

/-- Releases the queues that nothing holds, given those that are referred to from outside. -/
def release (f : Forest) (held : List QueueId) : Forest :=
  -- A round releases a queue or changes nothing more, so these are enough.
  f.releaseRounds held f.nodes.size

end FairShare.Forest
