import FairShare.Application
import FairShare.Scheduler
import FairShare.Text.Quoted
import FairShare.Tree.Basic

/-!
Short descriptions of queues, trees, applications and the scheduler, for people who look for faults.
-/

namespace FairShare

open Text (quoted)

/-- A kind of thing with some of what it holds. -/
def describe (kind : String) (fields : List (String × String)) (more : Bool) : String :=
  let parts := fields.map (fun f => f.1 ++ ": " ++ f.2) ++ if more then [".."] else []
  kind ++ " \x7b " ++ ", ".intercalate parts ++ " \x7d"

def boolWord (b : Bool) : String := if b then "true" else "false"

def describeNames (names : List String) : String :=
  "[" ++ ", ".intercalate (names.map quoted) ++ "]"

namespace Node

def describe (n : Node) : String :=
  FairShare.describe "Queue"
    [("name", quoted n.name), ("composite", boolWord n.isComposite)] false

def describeBase (n : Node) : String :=
  FairShare.describe "QueueBase" [("name", quoted n.name), ("root", boolWord n.isRoot)] true

def describeComposite? (n : Node) : Option String :=
  match n.body with
  | .composite c =>
    some <| FairShare.describe "CompositeQueue"
      [("name", quoted n.name), ("children", toString c.children.length)] false
  | _ => none

/-- The description of a leaf that holds applications, of which other queues have none. -/
def describeLeaf? (n : Node) : Option String :=
  match n.body with
  | .leaf l =>
    some <| FairShare.describe "InMemoryLeafQueue"
      [("name", quoted n.name), ("apps", toString l.apps.length)] false
  | _ => none

end Node

def Policy.describe (p : Policy) : String :=
  FairShare.describe "SchedulingPolicy" [("name", quoted p.name)] false

def QueueTree.describe (t : QueueTree) : String :=
  FairShare.describe "QueueTree"
    [("composites", describeNames t.composites.names), ("leaves", describeNames t.leaves.names)] true

def AttemptId.describe (a : AttemptId) : String :=
  FairShare.describe "ApplicationAttemptId"
    [("application", "ApplicationId(" ++ toString a.application.number ++ ")"),
     ("attempt", toString a.attempt)] false

def Application.describe (a : Application) (queue : String) : String :=
  let attempt := match a.attempt with
    | some attempt => "Some(" ++ attempt.describe ++ ")"
    | none => "None"
  FairShare.describe "SchedulerApplication"
    [("queue", quoted queue), ("user", quoted a.user),
     ("priority", "Priority(" ++ toString a.priority.level ++ ")"), ("current_attempt", attempt)]
    true

def Scheduler.describe (s : Scheduler) (root : String) : String :=
  FairShare.describe "SchedulingDriver"
    [("root", quoted root), ("cluster_capacity", s.capacity.render),
     ("preemption_enabled", boolWord s.preemption),
     ("max_assign_per_node", toString s.maxPerMachine)] true

end FairShare
