import FairShare.Application
import FairShare.Forest.Report
import FairShare.Forest.Shares
import FairShare.Scheduler

/-!
Commands of a session and the replies to them.
-/

namespace FairShare

structure Addition where
  name : String
  parent : String
  policy : String
  attach : Bool
  /-- How many completions the sink of the queue keeps. -/
  history : Nat
  body : Body

/-- What to change in a scripted leaf; what is not given stays. -/
structure Script where
  demand : Option Resource := none
  usage : Option Resource := none
  grant : Option Resource := none
  victim : Option ContainerId := none

inductive Query where
  | summary
  | shares
  | children
  | usage
  | demand
  | runnable
  | pacing
  | snapshot
  | snapshotText
  | attempts
  | permissions (user : String)
  | access (operation : Operation) (user : String)
  | simulate
  | accepts (machine : Machine)
  | victim
  | metrics
  | pendingCount
  | scripted
  | describe
  | describeComposite
  | describeLeaf

inductive Change where
  | updateDemand
  | recompute (kind : ShareKind)
  | setShare (kind : ShareKind) (share : Resource)
  | assign (machine : Machine)
  | updatePacing (now : Nat)
  | pace (usage demand : Resource) (now : Nat)
  | setPolicy (policy : String)
  | countIn
  | countOut
  | submit (attempt : AttemptId) (user : String)
  | request (attempt : AttemptId) (request : Resource) (times : Nat)
  | finish (attempt : AttemptId)
  | release (container : ContainerId)
  | script (answers : Script)
  | complete (user : String) (state : FinalState) (times : Nat)

inductive TreeCommand where
  | names
  | listing
  | health
  | describe
  | createLeaf (name policy : String)
  | reload (text : String) (checked : Bool)
  | add (addition : Addition)
  | attach (queue parent : String)
  | detach (parent name : String)
  | drop (name : String)

inductive ApplicationCommand where
  | accept (queue user : String) (password : Option String) (priority : Priority)
  | view
  | move (queue : String)
  | start (attempt : AttemptId)
  | stop (state : FinalState)
  | describe

inductive SchedulerCommand where
  | start (capacity : Resource) (preemption : Option Bool) (limit : Option Nat)
  | setCapacity (capacity : Resource)
  | setPreemption (on : Bool)
  | update (now : Nat)
  /-- One tick of the periodic update. -/
  | tick
  | cycle (machines : List Machine) (now : Nat)

inductive Command where
  | tree (command : TreeCommand)
  | query (queue : String) (query : Query)
  | change (queue : String) (change : Change)
  | application (handle : String) (command : ApplicationCommand)
  | scheduler (command : SchedulerCommand)

structure QueueSummary where
  name : String
  isRoot : Bool
  composite : Bool
  scope : Scope
  parent : Option String
  policy : String
  demand : Resource
  usage : Resource
  minShare : Resource
  maxShare : Option Resource
  weight : Float
  runnable : Nat
  children : List String

structure ApplicationSummary where
  queue : String
  user : String
  password : Option String
  priority : Priority
  attempt : Option AttemptId

inductive Reply where
  | flag (value : Bool)
  | count (value : Nat)
  | text (value : String)
  | user (value : Option String)
  | names (value : List String)
  | resource (value : Resource)
  | shares (value : List Shares)
  | pacing (value : Pacing)
  | snapshot (value : Snapshot)
  | attempts (value : List AttemptId)
  | attempt (value : Option AttemptId)
  | permissions (value : List Permission)
  | listing (value : List Listing)
  | health (value : Health)
  | summary (value : QueueSummary)
  | victim (value : Option Victim)
  | sink (value : Sink)
  | scripted (value : Scripted)
  | descriptions (queue base policy : String)
  | detached (removed : Option String) (children : List String)
  | application (value : ApplicationSummary)
  | capacity (capacity : Resource) (shares : List Shares)
  | updated (demand : Resource) (shares : List Shares)
  | cancelled (demand : Resource) (shares : List Shares)
  | cycle (report : CycleReport) (available : List Resource)

end FairShare
