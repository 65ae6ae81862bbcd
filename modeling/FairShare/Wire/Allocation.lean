import FairShare.Json.Read
import FairShare.Json.Write
import FairShare.Wire.Basic

/-!
The JSON form of an allocation.  Every member of an allocation and of a queue's settings has a
default.
-/

namespace FairShare

open Json (record ofString ofOption ofFloat asString? asFloat? asBool? asList? asOption? asTable?
  asOpenRecord?)

namespace QueueSettings

/-- The permissions that are configured, with the operations in an order. -/
def encodeUsers (order : List Operation) (s : QueueSettings) : Json :=
  record <| order.filterMap fun o =>
    (s.users o).map fun users => (o.word, .array (users.map ofString))

/-- The users of an operation among the members of an object; the last member counts. -/
def usersOf (operation : Operation) (members : List (Operation × List String)) :
    Option (List String) :=
  (members.reverse.find? fun m => m.1 = operation).map Prod.snd

def decodeUsers? : Json → Option (List (Operation × List String))
  | .object members => members.mapM fun (name, value) => do
    return (← Operation.ofWord? (← name), ← asList? asString? value)
  | _ => none

def encodeIn (order : List Operation) (s : QueueSettings) : Json :=
  record
    [("max_resources", ofOption Resource.encode s.maxResources),
     ("min_resources", ofOption Resource.encode s.minResources),
     ("weight", ofFloat s.weight),
     ("policy", ofOption ofString s.policy),
     ("acls", s.encodeUsers order),
     ("fair_share_preemption_threshold", ofOption ofFloat s.threshold),
     ("parent", .bool s.parent)]

def memberNames : List String :=
  ["max_resources", "min_resources", "weight", "policy", "acls",
   "fair_share_preemption_threshold", "parent"]

def decode? (j : Json) : Option QueueSettings := do
  let [maxResources, minResources, weight, policy, acls, threshold, parent] ←
    asOpenRecord? memberNames j | none
  let users ← (acls.map decodeUsers?).getD (some [])
  return {
    maxResources := ← (maxResources.map (asOption? Resource.decode?)).getD (some none)
    minResources := ← (minResources.map (asOption? Resource.decode?)).getD (some none)
    weight := ← (weight.map asFloat?).getD (some 1.0)
    policy := ← (policy.map (asOption? asString?)).getD (some none)
    submitters := usersOf .submitApplications users
    administrators := usersOf .administerQueue users
    threshold := ← (threshold.map (asOption? asFloat?)).getD (some none)
    parent := ← (parent.map asBool?).getD (some false) }

end QueueSettings

inductive AllocationTextError where
  | unreadable
  | invalid (fault : AllocationFault)
deriving DecidableEq

def AllocationTextError.message : AllocationTextError → String
  | unreadable => "parse error"
  | invalid fault => fault.message

namespace Allocation

/-- An allocation, with the permissions of each queue in an order of its own. -/
def encodeIn (order : String → List Operation) (a : Allocation) : Json :=
  record
    [("default_policy", ofOption ofString a.defaultPolicy),
     ("default_fair_share_preemption_threshold", ofFloat a.defaultThreshold),
     ("queues", record (a.queues.entries.map fun e => (e.1, e.2.encodeIn (order e.1))))]

/-- The order of permissions has no meaning; here it is that of `Operation.all`. -/
def encode (a : Allocation) : Json := a.encodeIn fun _ => Operation.all

def memberNames : List String :=
  ["default_policy", "default_fair_share_preemption_threshold", "queues"]

def decode? (j : Json) : Option Allocation := do
  let [policy, threshold, queues] ← asOpenRecord? memberNames j | none
  return {
    defaultPolicy := ← (policy.map (asOption? asString?)).getD (some none)
    defaultThreshold := ← (threshold.map asFloat?).getD (some 0.5)
    queues := ← (queues.map (asTable? QueueSettings.decode?)).getD (some ∅) }

def write (a : Allocation) : String := a.encode.write

/-- Whether an allocation reads back from its own text. -/
def readsBack (a : Allocation) : Bool := (Json.read? a.write).bind decode? = some a

def readUnchecked (text : String) : Except AllocationTextError Allocation :=
  match (Json.read? text).bind decode? with
  | some a => .ok a
  | none => .error .unreadable

def read (text : String) : Except AllocationTextError Allocation := do
  let a ← readUnchecked text
  match a.check with
  | .ok () => return a
  | .error fault => throw (.invalid fault)

end Allocation
end FairShare
