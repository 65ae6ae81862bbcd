import FairShare.Decimal.Layout
import FairShare.Path
import FairShare.Resource

/-!
The allocation of a cluster: what each queue may use at least and at most, its weight among its
siblings, who may use it, and when it counts as starved.  A queue without settings of its own has
the defaults; starvation thresholds and permissions are inherited from ancestors.
-/

namespace FairShare

/-- What a user may do with a queue. -/
inductive Operation where
  | submitApplications
  | administerQueue
deriving DecidableEq, Repr

namespace Operation

/-- Every operation, in the order of reports. -/
def all : List Operation := [submitApplications, administerQueue]

def word : Operation → String
  | submitApplications => "submit_applications"
  | administerQueue => "administer_queue"

def ofWord? (w : String) : Option Operation := all.find? fun o => o.word = w

end Operation

structure QueueSettings where
  maxResources : Option Resource := none
  minResources : Option Resource := none
  weight : Float := 1.0
  policy : Option String := none
  /-- The users who may submit applications, if that is configured. -/
  submitters : Option (List String) := none
  /-- The users who may administer the queue, if that is configured. -/
  administrators : Option (List String) := none
  /-- The part of its fair share below which the queue counts as starved. -/
  threshold : Option Float := none
  /-- Whether the queue may have queues below it although none is configured. -/
  parent : Bool := false
deriving DecidableEq

structure Allocation where
  defaultPolicy : Option String := none
  defaultThreshold : Float := 0.5
  queues : Table QueueSettings := ∅
deriving DecidableEq

def everyone : String := "*"

inductive SettingsFault where
  | weight (got : Float)
  | threshold (got : Float)
  | minExceedsMax (min max : Resource)
deriving DecidableEq

inductive AllocationFault where
  | defaultThreshold (got : Float)
  | name (fault : Path.Fault)
  | queue (name : String) (fault : SettingsFault)
deriving DecidableEq

namespace SettingsFault

def message : SettingsFault → String
  | .weight w => "weight must be positive, got " ++ Decimal.messageText w
  | .threshold t =>
    "fair_share_preemption_threshold must be within [0, 1], got " ++ Decimal.messageText t
  | .minExceedsMax min max =>
    "min_resources " ++ min.render ++ " exceeds max_resources " ++ max.render

end SettingsFault

namespace AllocationFault

def message : AllocationFault → String
  | .defaultThreshold t =>
    "default_fair_share_preemption_threshold must be within [0, 1], got " ++ Decimal.messageText t
  | .name fault => fault.message
  | .queue path fault => "queue `" ++ path ++ "` invalid: " ++ fault.message

end AllocationFault

def isPart (t : Float) : Bool := 0.0 ≤ t && t ≤ 1.0

namespace QueueSettings

/-- The users who may do something with the queue, if that is configured. -/
def users (s : QueueSettings) : Operation → Option (List String)
  | .submitApplications => s.submitters
  | .administerQueue => s.administrators

/-- Checks the weight, the threshold and the two limits, in this order. -/
def check (s : QueueSettings) : Except SettingsFault Unit := do
  unless s.weight.isFinite && 0.0 < s.weight do
    throw (.weight s.weight)
  if let some t := s.threshold then
    unless isPart t do
      throw (.threshold t)
  if let (some min, some max) := (s.minResources, s.maxResources) then
    unless min.fitsUnder max do
      throw (.minExceedsMax min max)

end QueueSettings

namespace Allocation

/-- Checks the default threshold, then every queue in the order of names. -/
def check (a : Allocation) : Except AllocationFault Unit := do
  unless isPart a.defaultThreshold do
    throw (.defaultThreshold a.defaultThreshold)
  a.queues.entries.forM fun (name, settings) => do
    (Path.check name).mapError .name
    settings.check.mapError (.queue name)

def settings? (a : Allocation) (queue : String) : Option QueueSettings := a.queues.get? queue

/-- The most that a queue may use; without it the queue is unlimited. -/
def maxResources (a : Allocation) (queue : String) : Option Resource :=
  (a.settings? queue).bind QueueSettings.maxResources

def minResources (a : Allocation) (queue : String) : Resource :=
  ((a.settings? queue).bind QueueSettings.minResources).getD .zero

def weight (a : Allocation) (queue : String) : Float :=
  ((a.settings? queue).map QueueSettings.weight).getD 1.0

/-- The part of its fair share below which a queue counts as starved: that of the nearest queue on
its path that has one. -/
def threshold (a : Allocation) (queue : String) : Float :=
  ((Path.ancestors queue).findSome? fun name =>
    (a.settings? name).bind QueueSettings.threshold).getD a.defaultThreshold

/-- The users who may do something, as configured for a queue itself. -/
def users (a : Allocation) (queue : String) (operation : Operation) : Option (List String) :=
  (a.settings? queue).bind fun s => s.users operation

/-- Whether a queue itself permits an operation to a user. -/
def permits (a : Allocation) (queue : String) (operation : Operation) (user : String) : Bool :=
  match a.users queue operation with
  | some users => users.any fun u => u = everyone || u = user
  | none => false

/-- Whether a user may do something with a queue: a queue on its path permits it, or nothing is
configured for the operation at the root. -/
def hasAccess (a : Allocation) (queue : String) (operation : Operation) (user : String) : Bool :=
  (Path.ancestors queue).any (a.permits · operation user) || (a.users Path.root operation).isNone

/-- The policy named for a queue, or else for all queues. -/
def policyName? (a : Allocation) (queue : String) : Option String :=
  ((a.settings? queue).bind QueueSettings.policy) <|> a.defaultPolicy

end Allocation
end FairShare
