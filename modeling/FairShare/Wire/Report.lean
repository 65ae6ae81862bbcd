import FairShare.Forest.Report
import FairShare.Scheduler
import FairShare.Wire.Basic

/-!
The JSON forms of reports.
-/

namespace FairShare

open Json (record ofNat ofString ofOption ofFloat asWord? asNat? asString? asBool? asFloat? asList?
  asOption? asRecord?)

namespace Pacing

/-- The largest time, which has 128 bits. -/
def maxTime : Nat := 0xffffffffffffffffffffffffffffffff

def encode (p : Pacing) : Json :=
  record [("last_time_at_min_share", ofNat p.atMinShare),
    ("last_time_at_fair_share_threshold", ofNat p.atFairShare)]

def decode? (j : Json) : Option Pacing := do
  let [some atMinShare, some atFairShare] ←
    asRecord? ["last_time_at_min_share", "last_time_at_fair_share_threshold"] j | none
  return ⟨← asNat? maxTime atMinShare, ← asNat? maxTime atFairShare⟩

end Pacing

namespace Permission

def encode (p : Permission) : Json :=
  record [("queue_name", ofString p.queue), ("user_acls", .array (p.operations.map Operation.encode))]

def decode? (j : Json) : Option Permission := do
  let [some queue, some operations] ← asRecord? ["queue_name", "user_acls"] j | none
  return ⟨← asString? queue, ← asList? Operation.decode? operations⟩

end Permission

namespace Listing

def encode (l : Listing) : Json :=
  record [("name", ofString l.name), ("depth", ofNat l.depth), ("composite", .bool l.composite)]

def decode? (j : Json) : Option Listing := do
  let [some name, some depth, some composite] ← asRecord? ["name", "depth", "composite"] j | none
  return ⟨← asString? name, ← asWord? depth, ← asBool? composite⟩

end Listing

namespace Health

def encode (h : Health) : Json := record [("ok", .bool h.ok), ("queues", ofNat h.queues)]

def decode? (j : Json) : Option Health := do
  let [some ok, some queues] ← asRecord? ["ok", "queues"] j | none
  return ⟨← asBool? ok, ← asWord? queues⟩

end Health

namespace Placement

def encode (p : Placement) : Json :=
  record [("node_id", ofString p.machine), ("containers", ofNat p.containers),
    ("resource", p.resource.encode)]

def decode? (j : Json) : Option Placement := do
  let [some machine, some containers, some resource] ←
    asRecord? ["node_id", "containers", "resource"] j | none
  return ⟨← asString? machine, ← asWord? containers, ← Resource.decode? resource⟩

end Placement

namespace CycleReport

def encode (r : CycleReport) : Json :=
  record [("cycle", ofNat r.cycle), ("demand", r.demand.encode),
    ("assignments", .array (r.placements.map Placement.encode)),
    ("preemption", ofOption Victim.encode r.victim)]

def decode? (j : Json) : Option CycleReport := do
  let [some cycle, some demand, some placements, victim] ←
    asRecord? ["cycle", "demand", "assignments", "preemption"] j | none
  return ⟨← asWord? cycle, ← Resource.decode? demand, ← asList? Placement.decode? placements,
    ← asOption? Victim.decode? (victim.getD .null)⟩

end CycleReport

namespace Snapshot

/-- The members of a snapshot, with its children already in JSON. -/
def encodeWith (s : Snapshot) (children : List Json) : Json :=
  record
    [("name", ofString s.name), ("policy", ofString s.policy), ("composite", .bool s.composite),
     ("demand", s.demand.encode), ("usage", s.usage.encode), ("fair_share", s.fairShare.encode),
     ("steady_fair_share", s.steadyShare.encode), ("min_share", s.minShare.encode),
     ("max_share", ofOption Resource.encode s.maxShare), ("weight", ofFloat s.weight),
     ("runnable_apps", ofNat s.runnable), ("preemption", s.pacing.encode),
     ("children", .array children)]

mutual

def encode (s : Snapshot) : Json :=
  match s with
  | ⟨n, p, c, d, u, f, t, lo, hi, w, r, g, children⟩ =>
    encodeWith ⟨n, p, c, d, u, f, t, lo, hi, w, r, g, children⟩ (encodeAll children)

def encodeAll : List Snapshot → List Json
  | [] => []
  | s :: rest => encode s :: encodeAll rest

end

/-- How deep the arrays and objects of a snapshot may be nested. -/
def maxDepth : Nat := 127

def memberNames : List String :=
  ["name", "policy", "composite", "demand", "usage", "fair_share", "steady_fair_share", "min_share",
   "max_share", "weight", "runnable_apps", "preemption", "children"]

/-- Reads a snapshot that may be nested to a depth.  The members of a snapshot are one level below
it, its children two. -/
def decodeWithin : Nat → Json → Option Snapshot
  | 0, _ => none
  | 1, _ => none
  | depth + 2, j => do
    let [some name, some policy, some composite, some demand, some usage, some fairShare,
      some steadyShare, some minShare, maxShare, some weight, some runnable, some pacing,
      some children] ← asRecord? memberNames j | none
    return {
      name := ← asString? name
      policy := ← asString? policy
      composite := ← asBool? composite
      demand := ← Resource.decode? demand
      usage := ← Resource.decode? usage
      fairShare := ← Resource.decode? fairShare
      steadyShare := ← Resource.decode? steadyShare
      minShare := ← Resource.decode? minShare
      maxShare := ← asOption? Resource.decode? (maxShare.getD .null)
      weight := ← asFloat? weight
      runnable := ← asWord? runnable
      pacing := ← Pacing.decode? pacing
      children := ← asList? (decodeWithin depth) children }

def decode? (j : Json) : Option Snapshot := decodeWithin maxDepth j

end Snapshot
end FairShare
