import FairShare.Forest.Basic

/-!
Choosing the container to give up.  A composite queue passes the question on to the child that its
policy ranks highest, the first of equals; a leaf chooses among its containers.
-/

namespace FairShare.Forest

/-- What a scripted leaf says that its container uses. -/
def scriptedUse : Resource := .ofMemoryCores 1 1

mutual

def victimBelow (f : Forest) : Shape → Option Victim
  | .node q below =>
    let n := f.node q
    match n.body with
    | .composite _ =>
      (firstGreatest (fun a b => n.policy.compare a.1 b.1) (f.victimsBelow below)).bind Prod.snd
    | .leaf l => l.victim?.map fun c => ⟨c.id, n.name, c.resource⟩
    | .scripted s => s.victim.map fun c => ⟨c, n.name, scriptedUse⟩

def victimsBelow (f : Forest) : List Shape → List (Standing × Option Victim)
  | [] => []
  | s :: rest => (f.standing s, f.victimBelow s) :: f.victimsBelow rest

end

def victim? (f : Forest) (q : QueueId) : Option Victim := f.victimBelow (f.shape q)

end FairShare.Forest
