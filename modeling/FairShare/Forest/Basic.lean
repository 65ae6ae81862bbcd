import FairShare.Allocation
import FairShare.Leaf
import FairShare.Metrics
import FairShare.Policy

/-!
Forests of queues.  A forest numbers its queues; a composite queue lists its children by number, and
every queue but the root names the queue under which it was created.  The two relations are
separate: a queue may be listed by no queue, by several, or twice by one.

`Forest.shape` unfolds the child lists below a queue into a tree of numbers.  Passes over a subtree
follow its shape.
-/

namespace FairShare

abbrev QueueId := Nat

structure Composite where
  /-- The queues below, in the order of the last assignment, later ones at the end. -/
  children : List QueueId := []
  demand : Resource := .zero
  runnable : Nat := 0
deriving DecidableEq, Inhabited

/-- A leaf queue with fixed answers, which counts how often it is asked. -/
structure Scripted where
  demand : Resource := .zero
  usage : Resource := .zero
  grant : Resource := .zero
  victim : Option ContainerId := none
  visits : Nat := 0
  demandUpdates : Nat := 0
deriving DecidableEq

inductive Body where
  | composite (c : Composite)
  | leaf (l : Leaf)
  | scripted (s : Scripted)
deriving DecidableEq

instance : Inhabited Body := ⟨.leaf {}⟩

structure Node where
  name : String
  /-- The queue under which this one was created; the root has none. -/
  parent : Option QueueId
  policy : Policy
  sink : SinkId
  fairShare : Resource := .zero
  steadyShare : Resource := .zero
  pacing : Pacing := {}
  body : Body
  /-- Nothing holds the queue any more. -/
  released : Bool := false
deriving Inhabited

namespace Node

def isComposite (n : Node) : Bool :=
  match n.body with
  | .composite _ => true
  | _ => false

def isRoot (n : Node) : Bool := n.parent.isNone

def scope (n : Node) : Scope :=
  if n.isComposite then if n.isRoot then .root else .intermediate else .leaf

def children (n : Node) : List QueueId :=
  match n.body with
  | .composite c => c.children
  | _ => []

def demand (n : Node) : Resource :=
  match n.body with
  | .composite c => c.demand
  | .leaf l => l.demand
  | .scripted s => s.demand

def runnable (n : Node) : Nat :=
  match n.body with
  | .composite c => c.runnable
  | .leaf l => l.apps.length
  | .scripted _ => 0

def attempts (n : Node) : List AttemptId :=
  match n.body with
  | .composite _ => []
  | .leaf l => l.apps.map App.attempt
  | .scripted s => [⟨⟨s.demand.memory⟩, 1⟩]

/-- Changes what a composite queue holds; any other queue stays as it is. -/
def mapComposite (f : Composite → Composite) (n : Node) : Node :=
  match n.body with
  | .composite c => { n with body := .composite (f c) }
  | _ => n

def mapLeaf (f : Leaf → Leaf) (n : Node) : Node :=
  match n.body with
  | .leaf l => { n with body := .leaf (f l) }
  | _ => n

def mapScripted (f : Scripted → Scripted) (n : Node) : Node :=
  match n.body with
  | .scripted s => { n with body := .scripted (f s) }
  | _ => n

end Node

/-- Queues by number, with the allocation in force and the metrics of all queues. -/
structure Forest where
  allocation : Allocation
  metrics : Metrics := #[]
  nodes : Array Node := #[]

inductive Shape where
  | node (id : QueueId) (below : List Shape)
deriving Inhabited

def Shape.id : Shape → QueueId
  | node id _ => id

def Shape.subtrees : Shape → List Shape
  | node _ below => below

namespace Forest

def node (f : Forest) (q : QueueId) : Node := f.nodes.getD q default

def update (f : Forest) (q : QueueId) (g : Node → Node) : Forest :=
  { f with nodes := f.nodes.modify q g }

/-- Adds a queue; its number is the number of queues before it. -/
def add (f : Forest) (n : Node) : Forest × QueueId :=
  ({ f with nodes := f.nodes.push n }, f.nodes.size)

@[simp] theorem size_update (f : Forest) (q : QueueId) (g : Node → Node) :
    (f.update q g).nodes.size = f.nodes.size := by
  simp [update]

theorem node_update_of_ne (f : Forest) {p q : QueueId} (g : Node → Node) (h : p ≠ q) :
    (f.update q g).node p = f.node p := by
  simp [node, update, Array.getD_eq_getD_getElem?, Array.getElem?_modify, Ne.symm h]

theorem node_update_self (f : Forest) {q : QueueId} (g : Node → Node) (h : q < f.nodes.size) :
    (f.update q g).node q = g (f.node q) := by
  simp [node, update, Array.getD_eq_getD_getElem?, Array.getElem_modify, h]

theorem node_add_of_lt (f : Forest) (n : Node) {q : QueueId} (h : q < f.nodes.size) :
    (f.add n).1.node q = f.node q := by
  simp [node, add, Array.getD_eq_getD_getElem?, Array.getElem?_push, Nat.ne_of_lt h]

@[simp] theorem node_add_size (f : Forest) (n : Node) : (f.add n).1.node f.nodes.size = n := by
  simp [node, add, Array.getD_eq_getD_getElem?]

/-- The parent of a queue, unless it has none or nothing holds it any more. -/
def parent? (f : Forest) (q : QueueId) : Option QueueId :=
  (f.node q).parent.filter fun p => !(f.node p).released

def unfold (f : Forest) : Nat → QueueId → Shape
  | 0, q => .node q []
  | n + 1, q => .node q ((f.node q).children.map (f.unfold n))

def shape (f : Forest) (q : QueueId) : Shape :=
  -- A chain of children without repetition is no longer than the forest.
  f.unfold f.nodes.size q

/-- The most that a queue may use; without it the queue is unlimited. -/
def maxShare (f : Forest) (q : QueueId) : Option Resource :=
  f.allocation.maxResources (f.node q).name

def minShare (f : Forest) (q : QueueId) : Resource := f.allocation.minResources (f.node q).name

def weight (f : Forest) (q : QueueId) : Float := f.allocation.weight (f.node q).name

mutual

def usageBelow (f : Forest) : Shape → Resource
  | .node q below =>
    match (f.node q).body with
    | .composite _ => .sum (f.usagesBelow below)
    | .leaf l => l.usage
    | .scripted s => s.usage

def usagesBelow (f : Forest) : List Shape → List Resource
  | [] => []
  | s :: rest => f.usageBelow s :: f.usagesBelow rest

end

def usage (f : Forest) (q : QueueId) : Resource := f.usageBelow (f.shape q)

mutual

def standing (f : Forest) : Shape → Standing
  | .node q below =>
    let n := f.node q
    { name := n.name
      scope := n.scope
      weight := f.weight q
      demand := n.demand
      usage := f.usageBelow (.node q below)
      fairShare := n.fairShare
      steadyShare := n.steadyShare
      minShare := f.minShare q
      maxShare := f.maxShare q
      runnable := n.runnable
      pacing := n.pacing
      attempts := n.attempts
      parent := (f.parent? q).map fun p => ((f.node p).fairShare, f.weight p)
      children := f.standings below }

def standings (f : Forest) : List Shape → List Standing
  | [] => []
  | s :: rest => f.standing s :: f.standings rest

end

def updateComposite (f : Forest) (q : QueueId) (g : Composite → Composite) : Forest :=
  f.update q (Node.mapComposite g)

/-- The queues under which a queue was created, the nearest first, as far as something holds
them. -/
def ancestorsUpTo (f : Forest) : Nat → QueueId → List QueueId
  | 0, _ => []
  | n + 1, q =>
    match f.parent? q with
    | some p => p :: f.ancestorsUpTo n p
    | none => []

def ancestors (f : Forest) (q : QueueId) : List QueueId := f.ancestorsUpTo f.nodes.size q

def countIn (f : Forest) (q : QueueId) : Forest :=
  f.updateComposite q fun c => { c with runnable := c.runnable + 1 }

/-- Counts one application less that can run, but never fewer than none. -/
def countOut (f : Forest) (q : QueueId) : Forest :=
  f.updateComposite q fun c => { c with runnable := c.runnable - 1 }

/-- Appends a queue to the children of another. -/
def attach (f : Forest) (parent child : QueueId) : Forest :=
  f.updateComposite parent fun c => { c with children := c.children ++ [child] }

/-- Removes the first child of a name; fails if there is none. -/
def detach? (f : Forest) (parent : QueueId) (name : String) : Option Forest :=
  if (f.node parent).children.any fun q => (f.node q).name = name then
    some <| f.updateComposite parent fun c =>
      { c with children := c.children.eraseP fun q => (f.node q).name = name }
  else none

end Forest
end FairShare
