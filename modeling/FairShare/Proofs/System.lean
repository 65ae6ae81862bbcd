import FairShare.Forest.Applications
import FairShare.Proofs.Conservation
import FairShare.Tree.Basic

/-!
Runs of a tree of queues.  Whatever is done with a tree and its scheduler, from outside, is one of a
few operations; a run does them one after the other.  An operation that is refused changes nothing
of what it was refused for.
-/

namespace FairShare

/-- A tree of queues with its scheduler, once that is started. -/
structure System where
  tree : QueueTree
  scheduler : Option Scheduler := none

/-- An operation on a tree of queues. -/
inductive Event where
  | submit (leaf : QueueId) (attempt : AttemptId) (user : String)
  | request (leaf : QueueId) (attempt : AttemptId) (request : Resource)
  | finish (leaf : QueueId) (attempt : AttemptId)
  | release (leaf : QueueId) (container : ContainerId)
  | createLeaf (name : String) (policy : Policy)
  | updateDemand (queue : QueueId)
  | assign (queue : QueueId) (machine : Machine)
  | start (capacity : Resource) (preemption : Bool) (limit : Nat)
  | setCapacity (capacity : Resource)
  | update (now : Nat)
  | cycle (machines : List Machine) (now : Nat)
  | reload (allocation : Allocation)
  | attach (parent child : QueueId)
  | detach (parent : QueueId) (name : String)

/-- Whether an operation leaves the allocation and the structure of the tree alone, except that it
may create leaves, and places containers from the root only. -/
def Event.isRegular (root : QueueId) : Event → Bool
  | .assign q _ => q = root
  | .reload _ | .attach _ _ | .detach _ _ => false
  | _ => true

/-- Whether an operation is a pass over the queues, an assignment or a cycle. -/
def Event.isPass : Event → Bool
  | .updateDemand _ | .assign _ _ | .start _ _ _ | .setCapacity _ | .update _ | .cycle _ _ => true
  | _ => false

/-- Whether an operation is meant for one leaf, which may refuse it. -/
def Event.isOrder : Event → Bool
  | .submit _ _ _ | .request _ _ _ | .finish _ _ | .release _ _ => true
  | _ => false

namespace System

def forest (s : System) : Forest := s.tree.forest

def setForest (s : System) (f : Forest) : System := { s with tree := { s.tree with forest := f } }

/-- The system after an operation. -/
def perform (s : System) : Event → System
  | .submit q attempt user => s.setForest ((s.forest.submit? q attempt user).getD s.forest)
  | .request q attempt request => s.setForest ((s.forest.request? q attempt request).getD s.forest)
  | .finish q attempt => s.setForest (((s.forest.finish? q attempt).map Prod.fst).getD s.forest)
  | .release q container => s.setForest ((s.forest.releaseContainer? q container).getD s.forest)
  | .createLeaf name policy => { s with tree := (s.tree.createLeaf name policy).1 }
  | .updateDemand q => s.setForest (s.forest.updateDemand q)
  | .assign q machine => s.setForest (s.forest.assign machine q).1
  | .start capacity preemption limit =>
    let (f, d) := Scheduler.start s.forest s.tree.root capacity
    { s.setForest f with scheduler := some ({ d with preemption }.limited limit) }
  | .setCapacity capacity =>
    match s.scheduler with
    | some d =>
      let (f, d) := d.setCapacity s.forest s.tree.root capacity
      { s.setForest f with scheduler := some d }
    | none => s
  | .update now =>
    match s.scheduler with
    | some d => s.setForest (d.update s.forest s.tree.root now)
    | none => s
  | .cycle machines now =>
    match s.scheduler with
    | some d =>
      let (f, d, _, _) := d.runCycle s.forest s.tree.root machines now
      { s.setForest f with scheduler := some d }
    | none => s
  | .reload allocation =>
    match s.tree.reload allocation with
    | .ok tree => { s with tree }
    | .error _ => s
  | .attach parent child => s.setForest (s.forest.attach parent child)
  | .detach parent name => s.setForest ((s.forest.detach? parent name).getD s.forest)

/-- What is looked up stays as it is, unless a leaf is created. -/
theorem tree_perform {s : System} {e : Event}
    (settled : ∀ name policy, e ≠ .createLeaf name policy) :
    (s.perform e).tree = { s.tree with forest := (s.perform e).forest } := by
  cases e with
  | createLeaf name policy => exact absurd rfl (settled name policy)
  | setCapacity capacity => rw [perform]; split <;> rfl
  | update now => rw [perform]; split <;> rfl
  | cycle machines now => rw [perform]; split <;> rfl
  | reload allocation => rw [perform, QueueTree.reload]; cases allocation.check <;> rfl
  | _ => rfl

/-- The system after operations, one after the other. -/
def run (s : System) (events : List Event) : System := events.foldl perform s

/-- What every operation of a run preserves, the run preserves. -/
theorem run_preserves {P : System → Prop} {allowed : Event → Prop}
    (each : ∀ s e, allowed e → P s → P (s.perform e)) {s : System} {events : List Event}
    (ok : ∀ e ∈ events, allowed e) (holds : P s) : P (s.run events) := by
  induction events generalizing s with
  | nil => exact holds
  | cons e rest ih =>
    have first := each s e (ok e (by simp)) holds
    exact ih (fun e he => ok e (by simp [he])) first

/-- What counting, handing down, updates and assignments preserve, every operation made of them
preserves. -/
theorem pass_preserves {P : Forest → Prop} {s : System} {e : Event} (pass : e.isPass = true)
    (counted : ∀ f q, P f → P (f.updateDemand q))
    (shared : ∀ f root capacity, P f → P (f.distribute .steady root capacity))
    (ticked : ∀ f root capacity now, P f → P (f.tick root capacity now))
    (assigned : ∀ f q m, q = s.tree.root ∨ e = .assign q m → P f → P (f.assign m q).1)
    (holds : P s.forest) : P (s.perform e).forest := by
  cases e with
  | updateDemand q => exact counted _ q holds
  | assign q machine => exact assigned _ q machine (.inr rfl) holds
  | start capacity preemption limit => exact shared _ _ capacity holds
  | setCapacity capacity =>
    rw [perform]
    split
    · exact shared _ _ capacity holds
    · exact holds
  | update now =>
    rw [perform]
    split
    · exact ticked _ _ _ now holds
    · exact holds
  | cycle machines now =>
    rw [perform]
    split
    · next d _ =>
      have updated : P (d.update s.forest s.tree.root now) := ticked _ _ _ now holds
      exact Forest.fillAll_preserves (fun f m => assigned f _ m (.inl rfl)) updated
    · exact holds
  | _ => cases pass

/-- The same of what does not depend on demands, shares and times. -/
theorem pass_preserves_of_keeps {P : Forest → Prop} {s : System} {e : Event}
    (pass : e.isPass = true) (kept : ∀ f g, Forest.Keeps f g → P f → P g)
    (assigned : ∀ f q m, q = s.tree.root ∨ e = .assign q m → P f → P (f.assign m q).1)
    (holds : P s.forest) : P (s.perform e).forest := by
  apply pass_preserves pass
  case counted =>
    intro f q
    exact kept _ _ (Forest.keeps_updateDemand f q)
  case shared =>
    intro f root capacity
    exact kept _ _ (Forest.keeps_distribute .steady f root capacity)
  case ticked =>
    intro f root capacity now
    exact kept _ _ (Forest.keeps_tick f root capacity now)
  case assigned => exact assigned
  case holds => exact holds

end System
end FairShare
