import FairShare.Forest.Assignment
import FairShare.Forest.Demand
import FairShare.Forest.Preemption
import FairShare.Forest.Shares
import FairShare.Forest.Starvation

/-!
The scheduler of a cluster.  An update counts demand, hands the capacity of the cluster down as fair
shares and records which queues are not starved.  A cycle is an update followed by offers of every
machine and, if that is enabled, the choice of a container to give up.
-/

namespace FairShare

structure Placement where
  machine : String
  containers : Nat
  resource : Resource
deriving DecidableEq

structure CycleReport where
  cycle : Nat
  demand : Resource
  /-- What was placed, for the machines on which anything was. -/
  placements : List Placement
  victim : Option Victim
deriving DecidableEq

def CycleReport.total (r : CycleReport) : Resource := .sum (r.placements.map Placement.resource)

/-- The settings of the scheduler and the number of its cycles so far. -/
structure Scheduler where
  capacity : Resource
  preemption : Bool := false
  /-- How many containers a cycle places on one machine at most. -/
  maxPerMachine : Nat := 64
  cycles : Nat := 0
deriving DecidableEq

namespace Forest

/-- Hands a capacity down from a queue as one of its shares. -/
def distribute (kind : ShareKind) (f : Forest) (root : QueueId) (capacity : Resource) : Forest :=
  ((f.setShare kind root capacity).publish kind root).recomputeShares kind root

/-- Counts demand, hands the capacity down and records which queues are not starved. -/
def tick (f : Forest) (root : QueueId) (capacity : Resource) (now : Nat) : Forest :=
  ((f.updateDemand root).distribute .fair root capacity).updatePacing root now

/-- Offers a machine until nothing is granted, nothing is left, or the limit is reached.  Gives the
forest and the machine after, with the containers counted and their sum. -/
def fill (root : QueueId) : Nat → Forest → Machine → Nat → Resource →
    Forest × Machine × Nat × Resource
  | 0, f, machine, placed, sum => (f, machine, placed, sum)
  | left + 1, f, machine, placed, sum =>
    if machine.available.isZero then (f, machine, placed, sum)
    else
      let (f, granted) := f.assign machine root
      -- The queues may be in another order now, even if nothing was granted.
      if granted.isZero then (f, machine, placed, sum)
      else
        fill root left f { machine with available := machine.available.monus granted } (placed + 1)
          (sum + granted)

def fillAll (root : QueueId) (limit : Nat) : List Machine → Forest →
    Forest × List Machine × List Placement
  | [], f => (f, [], [])
  | machine :: rest, f =>
    let (f, machine, placed, sum) := fill root limit f machine 0 .zero
    let (f, machines, placements) := fillAll root limit rest f
    (f, machine :: machines,
      if placed = 0 then placements else ⟨machine.id, placed, sum⟩ :: placements)

end Forest

namespace Scheduler

/-- Sets the number of containers a cycle places on one machine at most, which is one at least. -/
def limited (s : Scheduler) (limit : Nat) : Scheduler := { s with maxPerMachine := max limit 1 }

/-- Starts a scheduler: the capacity is handed down as steady fair shares. -/
def start (f : Forest) (root : QueueId) (capacity : Resource) : Forest × Scheduler :=
  (f.distribute .steady root capacity, { capacity })

/-- Changes the capacity and hands it down as steady fair shares. -/
def setCapacity (s : Scheduler) (f : Forest) (root : QueueId) (capacity : Resource) :
    Forest × Scheduler :=
  (f.distribute .steady root capacity, { s with capacity })

def update (s : Scheduler) (f : Forest) (root : QueueId) (now : Nat) : Forest :=
  f.tick root s.capacity now

/-- One cycle; gives the forest, the scheduler and the machines after, and the report. -/
def runCycle (s : Scheduler) (f : Forest) (root : QueueId) (machines : List Machine) (now : Nat) :
    Forest × Scheduler × List Machine × CycleReport :=
  let (f, machines, placements) := Forest.fillAll root s.maxPerMachine machines (s.update f root now)
  let victim := if s.preemption then f.victim? root else none
  (f, { s with cycles := s.cycles + 1 }, machines,
    ⟨s.cycles + 1, (f.node root).demand, placements, victim⟩)

end Scheduler
end FairShare
