import FairShare.Forest.Basic

/-!
Applications in leaves.  A leaf takes in applications, their requests and the end of each; every
queue above the leaf counts the applications that can run.
-/

namespace FairShare.Forest

/-- Changes what a leaf holds; fails if the leaf does or if the queue is none. -/
def changeLeaf? (f : Forest) (q : QueueId) (change : Leaf → Option Leaf) : Option Forest :=
  match (f.node q).body with
  | .leaf l => (change l).map fun l => f.update q (Node.mapLeaf fun _ => l)
  | _ => none

/-- Counts an application in or out at every queue above a queue. -/
def countAbove (count : Forest → QueueId → Forest) (f : Forest) (q : QueueId) : Forest :=
  (f.ancestors q).foldl count f

/-- Submits an attempt to a leaf; fails if it is there already. -/
def submit? (f : Forest) (q : QueueId) (attempt : AttemptId) (user : String) : Option Forest :=
  (f.changeLeaf? q fun l => l.submit? attempt user).map fun g => g.countAbove countIn q

/-- Adds a request to an attempt in a leaf; fails if the attempt is unknown. -/
def request? (f : Forest) (q : QueueId) (attempt : AttemptId) (request : Resource) :
    Option Forest :=
  f.changeLeaf? q fun l => l.request? attempt request

/-- Ends an attempt in a leaf, and tells who submitted it; fails if the attempt is unknown. -/
def finish? (f : Forest) (q : QueueId) (attempt : AttemptId) : Option (Forest × String) :=
  match (f.node q).body with
  | .leaf l =>
    (l.finish? attempt).map fun (l, user) =>
      ((f.update q (Node.mapLeaf fun _ => l)).countAbove countOut q, user)
  | _ => none

/-- Releases a container in a leaf; fails if it does not run there. -/
def releaseContainer? (f : Forest) (q : QueueId) (container : ContainerId) : Option Forest :=
  f.changeLeaf? q fun l => l.release? container

end FairShare.Forest
