import FairShare.Forest.Basic

/-!
Placing containers.  A machine is offered to the children of a composite queue in the order of its
policy, until one of them grants something.  A queue that is over its cap, and every queue if the
machine is reserved, takes no part.
-/

namespace FairShare

structure Machine where
  id : String
  /-- What is not in use. -/
  available : Resource
  /-- The container for which the machine is reserved. -/
  reserved : Option ContainerId := none
deriving DecidableEq

namespace Forest

/-- Whether a queue may take a container on a machine. -/
def accepts (f : Forest) (machine : Machine) (s : Shape) : Bool :=
  machine.reserved.isNone &&
    match f.maxShare s.id with
    | some cap => (f.usageBelow s).fitsUnder cap
    | none => true

/-- Siblings in the order of a policy; equals keep their order. -/
def rankBy {α : Type} (f : Forest) (p : Policy) (shape : α → Shape) (siblings : List α) : List α :=
  (ranked (fun a b => p.compare a.1 b.1) (siblings.map fun a => (f.standing (shape a), a))).map
    Prod.snd

/-- What it does to offer a machine somewhere: the forest after and what was granted. -/
abbrev Offer := Forest → Forest × Resource

/-- Makes offers in turn until one of them grants something. -/
def firstGrant : List Offer → Offer
  | [], f => (f, .zero)
  | offer :: rest, f =>
    let (g, granted) := offer f
    if granted.isZero then firstGrant rest g else (g, granted)

mutual

def offer (machine : Machine) : Shape → Offer
  | .node q below, f =>
    match (f.node q).body with
    | .composite _ =>
      if f.accepts machine (.node q below) then
        -- The children stay in this order, whether or not one of them grants something.
        let order := f.rankBy (f.node q).policy Prod.fst (offers machine below)
        firstGrant (order.map Prod.snd)
          (f.updateComposite q fun c => { c with children := order.map fun o => o.1.id })
      else (f, .zero)
    | .leaf l =>
      if f.accepts machine (.node q below) then
        match l.grant? machine.available with
        | some (request, l') => (f.update q (Node.mapLeaf fun _ => l'), request)
        | none => (f, .zero)
      else (f, .zero)
    | .scripted s =>
      (f.update q (Node.mapScripted fun s => { s with visits := s.visits + 1 }), s.grant)

def offers (machine : Machine) : List Shape → List (Shape × Offer)
  | [] => []
  | s :: rest => (s, offer machine s) :: offers machine rest

end

/-- Tries to place one container on a machine; gives the forest after and what was granted. -/
def assign (f : Forest) (machine : Machine) (q : QueueId) : Forest × Resource :=
  offer machine (f.shape q) f

/-- The children of a queue with unmet demand, in the order in which they would be offered a
machine. -/
def simulate (f : Forest) (q : QueueId) : List QueueId :=
  let order := f.rankBy (f.node q).policy id (f.shape q).subtrees
  (order.filter fun s => !(f.node s.id).demand.fitsIn (f.usageBelow s)).map Shape.id

end Forest
end FairShare
