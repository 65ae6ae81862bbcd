import FairShare.Forest.Basic

/-!
Reports on the queues below a queue, in depth-first order: attempts, permissions, shares, a listing,
and a snapshot of everything that is known of each queue.
-/

namespace FairShare

/-- What a user may do with one queue. -/
structure Permission where
  queue : String
  operations : List Operation
deriving DecidableEq

structure Listing where
  name : String
  depth : Nat
  composite : Bool
deriving DecidableEq

structure Health where
  ok : Bool
  queues : Nat
deriving DecidableEq

structure Shares where
  name : String
  fair : Resource
  steady : Resource
deriving DecidableEq

/-- All that is known of a queue and of the queues below it. -/
structure Snapshot where
  name : String
  policy : String
  composite : Bool
  demand : Resource
  usage : Resource
  fairShare : Resource
  steadyShare : Resource
  minShare : Resource
  maxShare : Option Resource
  weight : Float
  runnable : Nat
  pacing : Pacing
  children : List Snapshot

namespace Forest

/-- What a user may do with one queue, which is given by the last segment of its name. -/
def permission (f : Forest) (user : String) (q : QueueId) : Permission :=
  let name := (f.node q).name
  ⟨Path.lastSegment name, Operation.all.filter fun o => f.allocation.hasAccess name o user⟩

mutual

def attemptsBelow (f : Forest) : Shape → List AttemptId
  | .node q below =>
    match (f.node q).body with
    | .composite _ => f.attemptsOf below
    | _ => (f.node q).attempts

def attemptsOf (f : Forest) : List Shape → List AttemptId
  | [] => []
  | s :: rest => f.attemptsBelow s ++ f.attemptsOf rest

end

mutual

/-- The queues of a shape, each before the queues below it, with their depth. -/
def visit (depth : Nat) : Shape → List (QueueId × Nat)
  | .node q below => (q, depth) :: visitAll (depth + 1) below

def visitAll (depth : Nat) : List Shape → List (QueueId × Nat)
  | [] => []
  | s :: rest => visit depth s ++ visitAll depth rest

end

mutual

def snapshotBelow (f : Forest) : Shape → Snapshot
  | .node q below =>
    let n := f.node q
    { name := n.name
      policy := n.policy.name
      composite := n.isComposite
      demand := n.demand
      usage := f.usageBelow (.node q below)
      fairShare := n.fairShare
      steadyShare := n.steadyShare
      minShare := f.minShare q
      maxShare := f.maxShare q
      weight := f.weight q
      runnable := n.runnable
      pacing := n.pacing
      children := f.snapshotsBelow below }

def snapshotsBelow (f : Forest) : List Shape → List Snapshot
  | [] => []
  | s :: rest => f.snapshotBelow s :: f.snapshotsBelow rest

end

/-- The queues below a queue and itself, each before the queues below it. -/
def queues (f : Forest) (q : QueueId) : List QueueId := (visit 0 (f.shape q)).map Prod.fst

def attempts (f : Forest) (q : QueueId) : List AttemptId := f.attemptsBelow (f.shape q)

def permissions (f : Forest) (user : String) (q : QueueId) : List Permission :=
  (f.queues q).map (f.permission user)

def shares (f : Forest) (q : QueueId) : List Shares :=
  (f.queues q).map fun p => ⟨(f.node p).name, (f.node p).fairShare, (f.node p).steadyShare⟩

def listing (f : Forest) (q : QueueId) : List Listing :=
  (visit 0 (f.shape q)).map fun (p, depth) => ⟨(f.node p).name, depth, (f.node p).isComposite⟩

def health (f : Forest) (q : QueueId) : Health := ⟨true, (f.listing q).length⟩

def snapshot (f : Forest) (q : QueueId) : Snapshot := f.snapshotBelow (f.shape q)

end Forest
end FairShare
