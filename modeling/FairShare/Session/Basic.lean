import FairShare.Application
import FairShare.Forest.Holding
import FairShare.Forest.Report
import FairShare.Scheduler
import FairShare.Tree.Build
import FairShare.Wire.Allocation

/-!
Sessions with a tree of queues.  Besides the queues that the tree looks up by name, a session keeps
queues that were added by hand, applications under handles, and a scheduler.
-/

namespace FairShare

/-- A tree of queues and what is being done with it. -/
structure Session where
  tree : QueueTree
  /-- The queues added by hand, by name. -/
  added : Table QueueId := ∅
  applications : Table Application := ∅
  scheduler : Option Scheduler := none

inductive Refusal where
  | noSuchQueue
  | noSuchApplication
  | noScheduler
  | allocationText (error : AllocationTextError)
  | tree (error : TreeError)
deriving DecidableEq

inductive StartRefusal where
  | allocationText (error : AllocationTextError)
  /-- The tree was not built; the policies that were asked for until then. -/
  | tree (error : TreeError) (asked : List String)

namespace Session

def forest (s : Session) : Forest := s.tree.forest

def setForest (s : Session) (f : Forest) : Session := { s with tree := { s.tree with forest := f } }

def readAllocation (text : String) (checked : Bool) : Except AllocationTextError Allocation :=
  if checked then Allocation.read text else Allocation.readUnchecked text

/-- Starts a session with the tree of an allocation; gives the policies that were asked for too. -/
def start (text : String) (checked : Bool) : Except StartRefusal (Session × List String) :=
  match readAllocation text checked with
  | .error e => .error (.allocationText e)
  | .ok a =>
    match QueueTree.build QueueTree.resolveNamed a with
    | (asked, .error e) => .error (.tree e asked)
    | (asked, .ok tree) => .ok ({ tree }, asked)

/-- The queue of a name: one added by hand before one of the tree. -/
def queue? (s : Session) (name : String) : Except Refusal QueueId :=
  match s.added.get? name <|> s.tree.find? name with
  | some q => .ok q
  | none => .error .noSuchQueue

def composite? (s : Session) (name : String) : Except Refusal QueueId := do
  let q ← s.queue? name
  if (s.forest.node q).isComposite then return q else throw .noSuchQueue

def leaf? (s : Session) (name : String) : Except Refusal (QueueId × Leaf) := do
  let q ← s.queue? name
  match (s.forest.node q).body with
  | .leaf l => return (q, l)
  | _ => throw .noSuchQueue

def scripted? (s : Session) (name : String) : Except Refusal (QueueId × Scripted) := do
  let q ← s.queue? name
  match (s.forest.node q).body with
  | .scripted a => return (q, a)
  | _ => throw .noSuchQueue

/-- The sink of a name: that of a queue added by hand, or the one that the tree has for the name. -/
def sink? (s : Session) (name : String) : Except Refusal SinkId :=
  match (s.added.get? name).map (fun q => (s.forest.node q).sink) <|> s.tree.sinks.get? name with
  | some id => .ok id
  | none => .error .noSuchQueue

def application? (s : Session) (handle : String) : Except Refusal Application :=
  match s.applications.get? handle with
  | some a => .ok a
  | none => .error .noSuchApplication

def scheduler? (s : Session) : Except Refusal Scheduler :=
  match s.scheduler with
  | some d => .ok d
  | none => .error .noScheduler

def policy? (name : String) : Except Refusal Policy := (QueueTree.resolveNamed name).mapError .tree

def held (s : Session) : List QueueId :=
  s.tree.root :: (s.tree.composites.values ++ s.tree.leaves.values ++ s.added.values
    ++ s.applications.values.map Application.queue)

def release (s : Session) : Session := s.setForest (s.forest.release s.held)

def childNames (s : Session) (q : QueueId) : List String :=
  (s.forest.node q).children.map fun c => (s.forest.node c).name

end Session
end FairShare
