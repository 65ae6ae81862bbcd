import FairShare.Ident
import FairShare.Resource

/-!
Metrics of queues.  A sink records the shares pushed into it and the applications that ended, keeps
the latest of these as a log, and passes each on to its parent sink.
-/

namespace FairShare

/-- An application that ended, as the sink of a queue records it. -/
structure Completion where
  queue : String
  user : String
  state : FinalState
deriving DecidableEq

structure Tally where
  finished : Nat := 0
  failed : Nat := 0
  killed : Nat := 0
deriving DecidableEq

namespace Tally

def get (t : Tally) : FinalState → Nat
  | .finished => t.finished
  | .failed => t.failed
  | .killed => t.killed

def count (t : Tally) : FinalState → Tally
  | .finished => { t with finished := t.finished + 1 }
  | .failed => { t with failed := t.failed + 1 }
  | .killed => { t with killed := t.killed + 1 }

end Tally

abbrev SinkId := Nat

structure Sink where
  queue : String
  parent : Option SinkId
  capacity : Nat
  fairShare : Resource := .zero
  steadyShare : Resource := .zero
  /-- The latest completions, oldest first. -/
  log : List Completion := []
  tally : Tally := {}
deriving DecidableEq, Inhabited

namespace Sink

/-- Records a completion.  A full log loses its oldest entry first. -/
def record (s : Sink) (user : String) (state : FinalState) : Sink :=
  -- Room is made before the new entry is added, so even a log of capacity 0 holds one.
  let kept := if s.capacity ≤ s.log.length then s.log.drop 1 else s.log
  { s with
    log := kept ++ [⟨s.queue, user, state⟩]
    tally := s.tally.count state }

end Sink

abbrev Metrics := Array Sink

namespace Metrics

def sink (m : Metrics) (id : SinkId) : Sink := m.getD id default

/-- Adds a sink; its number is the number of sinks before it. -/
def add (m : Metrics) (s : Sink) : Metrics × SinkId := (m.push s, m.size)

def setFairShare (m : Metrics) (id : SinkId) (share : Resource) : Metrics :=
  m.modify id fun s => { s with fairShare := share }

def setSteadyShare (m : Metrics) (id : SinkId) (share : Resource) : Metrics :=
  m.modify id fun s => { s with steadyShare := share }

/-- Records a completion in a sink and in the sinks above it.  A parent sink is older than the sinks
that name it. -/
def complete (m : Metrics) (id : SinkId) (user : String) (state : FinalState) : Metrics :=
  let recorded : Metrics := m.modify id fun s => s.record user state
  match (m.sink id).parent with
  | some parent => if parent < id then recorded.complete parent user state else recorded
  | none => recorded
termination_by id

end Metrics
end FairShare
