import FairShare.Forest.Basic

/-!
Trees of queues: a forest with the number of its root and a look-up of queues and sinks by name.
-/

namespace FairShare

inductive TreeError where
  | policyNotApplicable (policy queue : String)
  | invalidConfig (fault : AllocationFault)
  | unknownPolicy (policy : String)
  | duplicateQueue (queue : String)
  | unknownParent (queue : String)
deriving DecidableEq

def TreeError.message : TreeError → String
  | .policyNotApplicable policy queue =>
    "policy '" ++ policy ++ "' is not applicable to queue '" ++ queue ++ "'"
  | .invalidConfig fault => "invalid allocation configuration: " ++ fault.message
  | .unknownPolicy policy => "unknown scheduling policy: '" ++ policy ++ "'"
  | .duplicateQueue queue => "duplicate queue: '" ++ queue ++ "'"
  | .unknownParent queue =>
    "parent of queue '" ++ queue ++ "' is missing or is not a parent queue"

/-- Checks that a policy applies at a scope; a refusal names the queue it was meant for. -/
def Policy.checkScope (p : Policy) (scope : Scope) (queue : String) : Except TreeError Unit :=
  if p.appliesTo scope then .ok () else .error (.policyNotApplicable p.name queue)

namespace Forest

/-- Adds a queue that is created for a scope, if its policy applies there. -/
def create (f : Forest) (scope : Scope) (n : Node) : Except TreeError (Forest × QueueId) :=
  (n.policy.checkScope scope n.name).map fun _ => f.add n

/-- Installs a policy if it applies where the queue stands. -/
def setPolicy (f : Forest) (q : QueueId) (p : Policy) : Except TreeError Forest :=
  (p.checkScope (f.node q).scope (f.node q).name).map fun _ => f.update q fun n => { n with policy := p }

end Forest

/-- A tree of queues with its look-ups. -/
structure QueueTree where
  forest : Forest
  root : QueueId
  composites : Table QueueId
  leaves : Table QueueId
  sinks : Table SinkId

namespace QueueTree

/-- How many completions the sink of a queue keeps. -/
def logCapacity : Nat := 1024

def find? (t : QueueTree) (name : String) : Option QueueId :=
  t.composites.get? name <|> t.leaves.get? name

def names (t : QueueTree) : List String :=
  (Table.tabulate (fun _ => some ()) (t.composites.names ++ t.leaves.names)).names

/-- The composite queue under which a name belongs. -/
def parentOf? (t : QueueTree) (name : String) : Option QueueId :=
  (Path.parent? name).bind t.composites.get?

/-- Adds a sink for a name; it passes completions on to the sink of the parent queue. -/
def addSink (t : QueueTree) (name : String) (parent : QueueId) : QueueTree × SinkId :=
  let above := t.sinks.get? (t.forest.node parent).name
  let (metrics, sink) := t.forest.metrics.add { queue := name, parent := above, capacity := logCapacity }
  ({ t with forest := { t.forest with metrics }, sinks := t.sinks.insert name sink }, sink)

def createComposite (t : QueueTree) (name : String) (parent : QueueId) (policy : Policy) :
    QueueTree × Except TreeError QueueId :=
  let (t, sink) := t.addSink name parent
  match t.forest.create .intermediate
    { name, parent := some parent, policy, sink, body := .composite {} } with
  | .error e => (t, .error e)
  | .ok (forest, q) =>
    ({ t with forest := forest.attach parent q, composites := t.composites.insert name q }, .ok q)

/-- Adds a leaf below the composite queue at its parent path.  The sink of the leaf is there even if
its policy is refused. -/
def createLeaf (t : QueueTree) (name : String) (policy : Policy) :
    QueueTree × Except TreeError QueueId :=
  if t.composites.contains name || t.leaves.contains name then (t, .error (.duplicateQueue name))
  else
    match t.parentOf? name with
    | none => (t, .error (.unknownParent name))
    | some parent =>
      let (t, sink) := t.addSink name parent
      match t.forest.create .leaf
        { name, parent := some parent, policy, sink, body := .leaf {} } with
      | .error e => (t, .error e)
      | .ok (forest, q) =>
        ({ t with forest := forest.attach parent q, leaves := t.leaves.insert name q }, .ok q)

/-- Puts an allocation in force; the queues stay as they are. -/
def reload (t : QueueTree) (allocation : Allocation) : Except TreeError QueueTree :=
  match allocation.check with
  | .error fault => .error (.invalidConfig fault)
  | .ok () => .ok { t with forest := { t.forest with allocation } }

end QueueTree
end FairShare
