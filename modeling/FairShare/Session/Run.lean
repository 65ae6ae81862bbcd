import FairShare.Describe
import FairShare.Forest.Applications
import FairShare.Session.Basic
import FairShare.Session.Command
import FairShare.Wire.Report

/-!
Running the commands of a session.  A command that is refused may still leave a trace: a leaf whose
policy is refused leaves its sink.
-/

namespace FairShare.Session

/-- A session after a command, and the reply. -/
abbrev Step := Session × Except Refusal Reply

def answer (s : Session) (reply : Except Refusal Reply) : Step := (s, reply)

/-- Changes the session, or leaves it if the change is refused. -/
def changing (s : Session) : Except Refusal (Session × Reply) → Step
  | .ok (t, reply) => (t, .ok reply)
  | .error e => (s, .error e)

def summary (s : Session) (q : QueueId) : QueueSummary :=
  let f := s.forest
  let n := f.node q
  { name := n.name
    isRoot := n.isRoot
    composite := n.isComposite
    scope := n.scope
    parent := (f.parent? q).map fun p => (f.node p).name
    policy := n.policy.name
    demand := n.demand
    usage := f.usage q
    minShare := f.minShare q
    maxShare := f.maxShare q
    weight := f.weight q
    runnable := n.runnable
    children := s.childNames q }

def ask (s : Session) (name : String) (query : Query) : Except Refusal Reply := do
  let f := s.forest
  match query with
  | .summary => return .summary (s.summary (← s.queue? name))
  | .shares => return .shares (f.shares (← s.queue? name))
  | .children => return .names (s.childNames (← s.queue? name))
  | .usage => return .resource (f.usage (← s.queue? name))
  | .demand => return .resource (f.node (← s.queue? name)).demand
  | .runnable => return .count (f.node (← s.queue? name)).runnable
  | .pacing => return .pacing (f.node (← s.queue? name)).pacing
  | .snapshot => return .snapshot (f.snapshot (← s.queue? name))
  | .snapshotText => return .text (f.snapshot (← s.queue? name)).encode.write
  | .attempts => return .attempts (f.attempts (← s.queue? name))
  | .permissions user => return .permissions (f.permissions user (← s.queue? name))
  | .access operation user =>
    return .flag (f.allocation.hasAccess (f.node (← s.queue? name)).name operation user)
  | .simulate =>
    return .names ((f.simulate (← s.composite? name)).map fun q => (f.node q).name)
  | .accepts machine => return .flag (f.accepts machine (f.shape (← s.queue? name)))
  | .victim => return .victim (f.victim? (← s.queue? name))
  | .metrics => return .sink (f.metrics.sink (← s.sink? name))
  | .pendingCount => return .count (← s.leaf? name).2.pendingCount
  | .scripted => return .scripted (← s.scripted? name).2
  | .describe =>
    let n := f.node (← s.queue? name)
    return .descriptions n.describe n.describeBase n.policy.describe
  | .describeComposite =>
    match (f.node (← s.queue? name)).describeComposite? with
    | some text => return .text text
    | none => throw .noSuchQueue
  | .describeLeaf =>
    match (f.node (← s.queue? name)).describeLeaf? with
    | some text => return .text text
    | none => throw .noSuchQueue

/-- Makes a request a number of times; fails if the attempt is unknown. -/
def requestTimes (f : Forest) (q : QueueId) (attempt : AttemptId) (request : Resource) :
    Nat → Option Forest
  | 0 => some f
  | n + 1 => (f.request? q attempt request).bind fun f => requestTimes f q attempt request n

def completeTimes (f : Forest) (q : QueueId) (user : String) (state : FinalState) : Nat → Forest
  | 0 => f
  | n + 1 => completeTimes (f.complete q user state) q user state n

def revise (script : Script) (s : Scripted) : Scripted :=
  { s with
    demand := script.demand.getD s.demand
    usage := script.usage.getD s.usage
    grant := script.grant.getD s.grant
    victim := script.victim <|> s.victim }

def apply (s : Session) (name : String) (change : Change) : Except Refusal (Session × Reply) := do
  let f := s.forest
  match change with
  | .updateDemand =>
    let q ← s.queue? name
    let g := f.updateDemand q
    return (s.setForest g, .resource (g.node q).demand)
  | .recompute kind =>
    -- Only composite queues hand steady shares down on request.
    let q ← if kind = .fair then s.queue? name else s.composite? name
    let g := f.recomputeShares kind q
    return (s.setForest g, .shares (g.shares q))
  | .setShare kind share =>
    let q ← s.queue? name
    let g := f.setShare kind q share
    return (s.setForest g, .resource ((g.node q).share kind))
  | .assign machine =>
    let (g, granted) := f.assign machine (← s.queue? name)
    return (s.setForest g, .resource granted)
  | .updatePacing now =>
    let q ← s.queue? name
    let g := f.updatePacing q now
    return (s.setForest g, .pacing (g.node q).pacing)
  | .pace usage demand now =>
    let q ← s.queue? name
    let g := f.pace q usage demand now
    return (s.setForest g, .pacing (g.node q).pacing)
  | .setPolicy policyName =>
    let q ← s.queue? name
    let policy ← policy? policyName
    let g ← (f.setPolicy q policy).mapError .tree
    return (s.setForest g, .text (g.node q).policy.name)
  | .countIn =>
    let q ← s.composite? name
    let g := f.countIn q
    return (s.setForest g, .count (g.node q).runnable)
  | .countOut =>
    let q ← s.composite? name
    let g := f.countOut q
    return (s.setForest g, .count (g.node q).runnable)
  | .submit attempt user =>
    let (q, _) ← s.leaf? name
    match f.submit? q attempt user with
    | some g => return (s.setForest g, .flag true)
    | none => return (s, .flag false)
  | .request attempt request times =>
    let (q, _) ← s.leaf? name
    match requestTimes f q attempt request times with
    | some g => return (s.setForest g, .flag true)
    | none => return (s, .flag false)
  | .finish attempt =>
    let (q, _) ← s.leaf? name
    match f.finish? q attempt with
    | some (g, user) => return (s.setForest g, .user (some user))
    | none => return (s, .user none)
  | .release container =>
    let (q, _) ← s.leaf? name
    match f.releaseContainer? q container with
    | some g => return (s.setForest g, .flag true)
    | none => return (s, .flag false)
  | .script script =>
    let (q, a) ← s.scripted? name
    let a := revise script a
    return (s.setForest (f.update q (Node.mapScripted fun _ => a)), .scripted a)
  | .complete user state times =>
    let q ← s.queue? name
    return (s.setForest (completeTimes f q user state times), .flag true)

/-- Adds a queue by hand, with a sink of its own.  A scripted leaf takes any policy. -/
def add (s : Session) (a : Addition) : Except Refusal (Session × Reply) := do
  let parent ← s.composite? a.parent
  let policy ← policy? a.policy
  let f := s.forest
  -- The sink passes nothing on, unlike those of the tree.
  let (metrics, sink) := f.metrics.add { queue := a.name, parent := none, capacity := a.history }
  let node : Node := { name := a.name, parent := some parent, policy, sink, body := a.body }
  let g := { f with metrics }
  let (g, q) ← match a.body with
    | .scripted _ => pure (g.add node)
    | .composite _ => (g.create .intermediate node).mapError .tree
    | .leaf _ => (g.create .leaf node).mapError .tree
  let g := if a.attach then g.attach parent q else g
  let t := ({ s with added := s.added.insert a.name q }.setForest g).release
  return (t, .names (t.childNames parent))

def runTree (s : Session) : TreeCommand → Step
  | .names => s.answer (.ok (.names s.tree.names))
  | .listing => s.answer (.ok (.listing (s.forest.listing s.tree.root)))
  | .health => s.answer (.ok (.health (s.forest.health s.tree.root)))
  | .describe => s.answer (.ok (.text s.tree.describe))
  | .createLeaf name policyName =>
    match policy? policyName with
    | .error e => (s, .error e)
    | .ok policy =>
      let (tree, created) := s.tree.createLeaf name policy
      ({ s with tree },
        match created with
        | .ok q => .ok (.text (Path.lastSegment (tree.forest.node q).name))
        | .error e => .error (.tree e))
  | .reload text checked => s.changing do
    let a ← (readAllocation text checked).mapError .allocationText
    let tree ← (s.tree.reload a).mapError .tree
    return ({ s with tree }, .flag true)
  | .add addition => s.changing (s.add addition)
  | .attach queue parent => s.changing do
    let q ← s.queue? queue
    let p ← s.composite? parent
    let t := s.setForest (s.forest.attach p q)
    return (t, .names (t.childNames p))
  | .detach parent name => s.changing do
    let p ← s.composite? parent
    match s.forest.detach? p name with
    | some f =>
      let t := (s.setForest f).release
      return (t, .detached (some name) (t.childNames p))
    | none => return (s, .detached none (s.childNames p))
  | .drop name =>
    if s.added.contains name then
      ({ s with added := s.added.erase name }.release, .ok (.flag true))
    else (s, .ok (.flag false))

def applicationSummary (s : Session) (a : Application) : ApplicationSummary :=
  { queue := (s.forest.node a.queue).name
    user := a.user
    password := a.password
    priority := a.priority
    attempt := a.attempt }

def runApplication (s : Session) (handle : String) (command : ApplicationCommand) :
    Except Refusal (Session × Reply) := do
  match command with
  | .accept queue user password priority =>
    let a : Application := { queue := ← s.queue? queue, user, password, priority }
    let t := { s with applications := s.applications.insert handle a }.release
    return (t, .application (t.applicationSummary a))
  | .view =>
    let a ← s.application? handle
    return (s, .application (s.applicationSummary a))
  | .move queue =>
    let q ← s.queue? queue
    let a := (← s.application? handle).move q
    let t := { s with applications := s.applications.insert handle a }.release
    return (t, .application (t.applicationSummary a))
  | .start attempt =>
    let a ← s.application? handle
    return ({ s with applications := s.applications.insert handle (a.start attempt) },
      .attempt a.attempt)
  | .stop state =>
    let a ← s.application? handle
    let t := { s with applications := s.applications.erase handle }
    return ((t.setForest (s.forest.stop a state)).release, .flag true)
  | .describe =>
    let a ← s.application? handle
    return (s, .text (a.describe (s.forest.node a.queue).name))

def runScheduler (s : Session) (command : SchedulerCommand) : Except Refusal (Session × Reply) := do
  let root := s.tree.root
  let demand (f : Forest) := (f.node root).demand
  match command with
  | .start capacity preemption limit =>
    let (f, d) := Scheduler.start s.forest root capacity
    let d := { d with preemption := preemption.getD d.preemption }
    let d := (limit.map d.limited).getD d
    return ({ s with scheduler := some d }.setForest f, .text (d.describe (f.node root).name))
  | .setCapacity capacity =>
    let d ← s.scheduler?
    let (f, d) := d.setCapacity s.forest root capacity
    return ({ s with scheduler := some d }.setForest f, .capacity d.capacity (f.shares root))
  | .setPreemption on =>
    let d ← s.scheduler?
    return ({ s with scheduler := some { d with preemption := on } }, .flag true)
  | .update now =>
    let f := (← s.scheduler?).update s.forest root now
    return (s.setForest f, .updated (demand f) (f.shares root))
  | .tick =>
    let f := (← s.scheduler?).update s.forest root 0
    return (s.setForest f, .cancelled (demand f) (f.shares root))
  | .cycle machines now =>
    let d ← s.scheduler?
    let (f, d, machines, report) := d.runCycle s.forest root machines now
    return ({ s with scheduler := some d }.setForest f,
      .cycle report (machines.map Machine.available))

def run (s : Session) : Command → Step
  | .tree command => s.runTree command
  | .query queue query => s.answer (s.ask queue query)
  | .change queue change => s.changing (s.apply queue change)
  | .application handle command => s.changing (s.runApplication handle command)
  | .scheduler command => s.changing (s.runScheduler command)

end FairShare.Session
