import FairShare.Forest.Basic

/-!
Handing shares down.  The policy of a composite queue splits its share among its children; every
child's share goes to its metrics and is split further below it.  Fair shares and steady fair shares
are handed down in the same way.
-/

namespace FairShare

/-- The two shares of a queue: of what is demanded now, and of the whole cluster. -/
inductive ShareKind where
  | fair
  | steady
deriving DecidableEq, Repr

def Node.share (n : Node) : ShareKind → Resource
  | .fair => n.fairShare
  | .steady => n.steadyShare

def Node.setShare (n : Node) (share : Resource) : ShareKind → Node
  | .fair => { n with fairShare := share }
  | .steady => { n with steadyShare := share }

def Policy.splitOf (p : Policy) : ShareKind → Resource → List Standing → List Resource
  | .fair => p.split
  | .steady => p.splitSteady

def Metrics.setShare (m : Metrics) (id : SinkId) (share : Resource) : ShareKind → Metrics
  | .fair => m.setFairShare id share
  | .steady => m.setSteadyShare id share

namespace Forest

def setShare (kind : ShareKind) (f : Forest) (q : QueueId) (share : Resource) : Forest :=
  f.update q fun n => n.setShare share kind

def publish (kind : ShareKind) (f : Forest) (q : QueueId) : Forest :=
  { f with metrics := f.metrics.setShare (f.node q).sink ((f.node q).share kind) kind }

/-- Gives queues their shares, in order, as far as there are shares. -/
def giveShares (kind : ShareKind) (f : Forest) (queues : List QueueId) (shares : List Resource) :
    Forest :=
  (queues.zip shares).foldl (fun f (q, share) => f.setShare kind q share) f

mutual

def splitShares (kind : ShareKind) : Shape → Forest → Forest
  | .node q below, f =>
    let n := f.node q
    if n.isComposite then
      let shares := n.policy.splitOf kind (n.share kind) (below.map f.standing)
      -- All children have their shares before the first of them splits its own.
      publishAll kind below (f.giveShares kind (below.map Shape.id) shares)
    else f

/-- Records the shares of queues and splits them further, one queue after the other. -/
def publishAll (kind : ShareKind) : List Shape → Forest → Forest
  | [], f => f
  | s :: rest, f => publishAll kind rest (splitShares kind s (f.publish kind s.id))

end

def recomputeShares (kind : ShareKind) (f : Forest) (q : QueueId) : Forest :=
  splitShares kind (f.shape q) f

end Forest
end FairShare
