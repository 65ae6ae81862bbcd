import FairShare.Forest.Basic

/-!
Applications that were accepted.  An application is bound to a queue, may be moved to another one,
and keeps its latest attempt; when it stops, the metrics of the queue it is bound to are told.
-/

namespace FairShare

structure Application where
  queue : QueueId
  user : String
  password : Option String := none
  priority : Priority := default
  /-- The attempt that runs the application, if one was started. -/
  attempt : Option AttemptId := none
deriving DecidableEq

namespace Application

def move (a : Application) (queue : QueueId) : Application := { a with queue }

def start (a : Application) (attempt : AttemptId) : Application := { a with attempt := some attempt }

end Application

namespace Forest

/-- Reports to the metrics of a queue that an application of a user ended. -/
def complete (f : Forest) (q : QueueId) (user : String) (state : FinalState) : Forest :=
  { f with metrics := f.metrics.complete (f.node q).sink user state }

def stop (f : Forest) (a : Application) (state : FinalState) : Forest :=
  f.complete a.queue a.user state

end Forest
end FairShare
