import FairShare.Forest.Basic

/-!
When queues last were not starved.  A queue is at its minimum while it uses the smaller of what it
is guaranteed and what it demands, and at its fair share while it uses the smaller of the
threshold's part of its fair share and what it demands.
-/

namespace FairShare.Forest

/-- Records for one queue when it was last not starved, for a usage and a demand. -/
def pace (f : Forest) (q : QueueId) (usage demand : Resource) (now : Nat) : Forest :=
  let atMinShare := ((f.minShare q).meet demand).fitsIn usage
  let atFairShare :=
    (((f.node q).fairShare.scale (f.allocation.threshold (f.node q).name)).meet demand).fitsIn usage
  f.update q fun n =>
    { n with
      pacing :=
        { atMinShare := if atMinShare then now else n.pacing.atMinShare
          atFairShare := if atFairShare then now else n.pacing.atFairShare } }

mutual

/-- Records when a queue and the queues below it were last not starved. -/
def paceBelow (now : Nat) : Shape → Forest → Forest
  | .node q below, f =>
    -- The usage of a queue does not change while times are recorded.
    paceAll now below (f.pace q (f.usageBelow (.node q below)) (f.node q).demand now)

def paceAll (now : Nat) : List Shape → Forest → Forest
  | [], f => f
  | s :: rest, f => paceAll now rest (paceBelow now s f)

end

def updatePacing (f : Forest) (q : QueueId) (now : Nat) : Forest := paceBelow now (f.shape q) f

end FairShare.Forest
