import FairShare.Forest.Basic

/-!
Counting demand from the leaves up.  The demand of a queue is the sum of what its members use and
wait for, cut at the most that the queue may use.  Once the sum is at the cap in every dimension
that the cap names, the children that follow are counted with the demand they last had.
-/

namespace FairShare.Forest

/-- A demand cut at the most that a queue may use. -/
def cut (cap : Option Resource) (demand : Resource) : Resource :=
  match cap with
  | some cap => demand.clampTo cap
  | none => demand

/-- Whether a demand is at the cap in every dimension, one at least, that the cap names. -/
def isPinned (cap : Option Resource) (demand : Resource) : Bool :=
  match cap with
  | some cap => !cap.isZero && cap.fitsIn demand
  | none => false

mutual

def countDemand : Shape → Forest → Forest
  | .node q below, f =>
    match (f.node q).body with
    | .composite _ =>
      let (g, total) := countChildren (f.maxShare q) below f .zero false
      g.updateComposite q fun c => { c with demand := total }
    | .leaf _ => f.update q (Node.mapLeaf fun l => { l with demand := cut (f.maxShare q) l.want })
    | .scripted _ =>
      f.update q (Node.mapScripted fun s => { s with demandUpdates := s.demandUpdates + 1 })

/-- Adds the demands of children to a total; gives the forest after and the total. -/
def countChildren (cap : Option Resource) :
    List Shape → Forest → Resource → Bool → Forest × Resource
  | [], f, total, _ => (f, total)
  | s :: rest, f, total, pinned =>
    -- A pinned total cannot grow where the cap names a dimension; the child is not counted again.
    let g := if pinned then f else countDemand s f
    let sum := cut cap (total + (g.node s.id).demand)
    countChildren cap rest g sum (pinned || isPinned cap sum)

end

def updateDemand (f : Forest) (q : QueueId) : Forest := countDemand (f.shape q) f

end FairShare.Forest
