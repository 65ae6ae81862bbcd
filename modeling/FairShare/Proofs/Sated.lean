import FairShare.Proofs.Fitting
import FairShare.Proofs.Pacing
import FairShare.Proofs.Refresh

/-!
Queues that have what they want.  An update of times goes through all queues below the one on which
it is called and writes nothing but times.  A queue that uses all that it demands is recorded as not
starved, whatever is configured for it; and of two queues that demand the same and have the same fair
share, under the same allocation, the one that uses more is recorded whenever the other one is.
-/

namespace FairShare
namespace Forest

variable {f g : Forest} {p q r : QueueId} {s : Shape}

section

variable (met : (f.node s.id).demand.fitsIn (f.usageBelow s) = true)

include met

/-- What is guaranteed counts only as far as it is demanded. -/
theorem isAtMinShare_of_met : f.isAtMinShare s = true :=
  Resource.fitsIn_trans (Resource.meet_fitsIn_right _ _) met

theorem isAtFairShare_of_met : f.isAtFairShare s = true :=
  Resource.fitsIn_trans (Resource.meet_fitsIn_right _ _) met

/-- The times of a queue whose demand is met are those of the update. -/
theorem paced_of_met (now : Nat) : f.paced now s = ⟨now, now⟩ := by
  rw [paced, isAtMinShare_of_met met, isAtFairShare_of_met met]
  rfl

end

/-- A queue of one forest and a queue of another that are entitled to the same and demand the same,
the second of which uses at least as much. -/
structure Outdoes (f g : Forest) (p r : QueueId) : Prop where
  allocation : g.allocation = f.allocation
  name : (g.node r).name = (f.node p).name
  demand : (g.node r).demand = (f.node p).demand
  fairShare : (g.node r).fairShare = (f.node p).fairShare
  usage : ∀ dim, (f.usage p).get dim ≤ (g.usage r).get dim

namespace Outdoes

variable (more : Outdoes f g p r)

include more

theorem usage_fitsIn : (f.usageBelow (f.shape p)).fitsIn (g.usageBelow (g.shape r)) = true :=
  Resource.fitsIn_iff.2 more.usage

theorem isAtMinShare (recorded : f.isAtMinShare (f.shape p) = true) :
    g.isAtMinShare (g.shape r) = true := by
  rw [Forest.isAtMinShare, id_shape] at recorded ⊢
  have same : (g.minShare r).meet (g.node r).demand = (f.minShare p).meet (f.node p).demand := by
    rw [minShare, minShare, more.allocation, more.name, more.demand]
  rw [same]
  exact Resource.fitsIn_trans recorded more.usage_fitsIn

/-- The part of the fair share is rounded in the same way for both. -/
theorem isAtFairShare (recorded : f.isAtFairShare (f.shape p) = true) :
    g.isAtFairShare (g.shape r) = true := by
  rw [Forest.isAtFairShare, id_shape] at recorded ⊢
  rw [more.allocation, more.name, more.demand, more.fairShare]
  exact Resource.fitsIn_trans recorded more.usage_fitsIn

end Outdoes

/-- An update of times gives every queue below its times, and changes nothing else of it. -/
theorem node_updatePacing (rooted : f.IsRooted q) (now : Nat) (hp : p ∈ f.queues q) :
    (f.updatePacing q now).node p =
      { f.node p with pacing := f.paced now (f.shape p) } := by
  have follows := rooted.follows
  rw [queues_eq_ids] at hp
  obtain ⟨t, ht, rfl⟩ := List.mem_map.1 hp
  rw [updatePacing, node_paceBelow follows.known follows.distinct ht,
    follows.shape_of_mem_parts ht]

/-- Queues elsewhere keep their times. -/
theorem node_updatePacing_of_not_mem (now : Nat) (hp : p ∉ f.queues q) :
    (f.updatePacing q now).node p = f.node p := by
  rw [queues_eq_ids] at hp
  exact node_paceBelow_of_not_mem hp f

/-- An update of times reaches the queues below a queue and changes nothing but their times, each of
which becomes the present time or stays.  Both become the present time where the demand is met; and
what is recorded for a queue is recorded in a second forest for a queue that is entitled to the same,
demands the same and uses no less. -/
theorem updatePacing_records (rooted : f.IsRooted q) (now : Nat) :
    let after := f.updatePacing q now
    (after.allocation = f.allocation ∧ after.metrics = f.metrics ∧
      after.nodes.size = f.nodes.size ∧ ∀ p ∉ f.queues q, after.node p = f.node p) ∧
    (∀ p ∈ f.queues q,
      after.node p = { f.node p with pacing := (after.node p).pacing } ∧
      (after.node p).pacing.atMinShare =
        (if f.isAtMinShare (f.shape p) then now else (f.node p).pacing.atMinShare) ∧
      (after.node p).pacing.atFairShare =
        (if f.isAtFairShare (f.shape p) then now else (f.node p).pacing.atFairShare) ∧
      ((f.node p).demand.fitsIn (f.usage p) = true → (after.node p).pacing = ⟨now, now⟩)) ∧
    ∀ (g : Forest) (root : QueueId) (later : Nat), g.IsRooted root →
      ∀ p ∈ f.queues q, ∀ r ∈ g.queues root, f.Outdoes g p r →
        let second := ((g.updatePacing root later).node r).pacing
        (f.isAtMinShare (f.shape p) = true → second.atMinShare = later) ∧
        (f.isAtFairShare (f.shape p) = true → second.atFairShare = later) := by
  intro after
  have kept := keeps_paceBelow now (f.shape q) f
  have unpaced : after.unpaced = f.unpaced := unpaced_paceBelow now (f.shape q) f
  refine ⟨⟨kept.allocation, ?frame, kept.size, fun p hp => ?elsewhere⟩, fun p hp => ?below, ?second⟩
  case frame =>
    have metrics : after.unpaced.metrics = f.unpaced.metrics := by rw [unpaced]
    exact metrics
  case elsewhere => exact node_updatePacing_of_not_mem now hp
  case below =>
    have here : after.node p = { f.node p with pacing := f.paced now (f.shape p) } :=
      node_updatePacing rooted now hp
    rw [here, paced, id_shape]
    refine ⟨rfl, rfl, rfl, fun met => ?_⟩
    have both := paced_of_met (s := f.shape p) (by rwa [id_shape]) now
    rwa [paced, id_shape] at both
  case second =>
    intro g root later rooted' p hp r hr more second
    have there : second = g.paced later (g.shape r) :=
      congrArg Node.pacing (node_updatePacing rooted' later hr)
    rw [there]
    constructor
    · intro recorded
      exact if_pos (more.isAtMinShare recorded)
    · intro recorded
      exact if_pos (more.isAtFairShare recorded)

/-- A root over two leaves.  The first has all that it demands; the second is guaranteed more than it
may use, its part of the fair share is several times that share, and it runs some containers. -/
def hungrySample (running : List Resource) : Forest where
  allocation :=
    { queues := Table.ofList
        [("root", { threshold := some 7.5 }),
          ("root.b", { minResources := some (.ofMemoryCores 3 0), weight := -1.0,
                       maxResources := some (.ofMemoryCores 1 0) })] }
  nodes :=
    #[{ name := "root", parent := none, policy := .fair, sink := 0
        fairShare := .ofMemoryCores 9 9
        body := .composite { children := [1, 2], demand := .ofMemoryCores 8 3 } },
      { name := "root.a", parent := some 0, policy := .fair, sink := 1
        fairShare := .ofMemoryCores 8 8
        body := .leaf
          { apps :=
              [{ attempt := ⟨⟨1⟩, 1⟩, user := "ann", nextSequence := 2
                 running := [⟨⟨⟨⟨1⟩, 1⟩, 1⟩, .ofMemoryCores 2 1⟩] }]
            demand := .ofMemoryCores 2 1 } },
      { name := "root.b", parent := some 0, policy := .fair, sink := 2
        fairShare := .ofMemoryCores 1 1
        body := .leaf
          { apps :=
              [{ attempt := ⟨⟨2⟩, 1⟩, user := "bob", nextSequence := 9
                 running := running.mapIdx fun i r => ⟨⟨⟨⟨2⟩, 1⟩, i + 1⟩, r⟩ }]
            demand := .ofMemoryCores 6 2 } }]

/-- The first leaf is recorded as not starved.  The second one reaches what it is guaranteed, but not
its part of the fair share; where it runs one more container, it still does. -/
theorem updatePacing_records_hungry :
    let f := hungrySample [.ofMemoryCores 3 1]
    let g := hungrySample [.ofMemoryCores 3 1, .ofMemoryCores 1 0]
    f.IsRooted 0 ∧ g.IsRooted 0 ∧ f.Outdoes g 2 2 ∧
      ((f.updatePacing 0 5).node 1).pacing = ⟨5, 5⟩ ∧
      ((f.updatePacing 0 5).node 2).pacing = ⟨5, 0⟩ ∧
      ((g.updatePacing 0 6).node 2).pacing.atMinShare = 6 := by
  intro f g
  have rooted : f.IsRooted 0 := by decide
  have rooted' : g.IsRooted 0 := by decide
  have usage : f.usage 2 = .ofMemoryCores 3 1 ∧ g.usage 2 = .ofMemoryCores 4 1 := by
    decide +kernel
  have more : f.Outdoes g 2 2 := by
    refine ⟨rfl, rfl, rfl, rfl, ?_⟩
    rw [usage.1, usage.2, ← Resource.fitsIn_iff]
    decide +kernel
  have guaranteed : f.isAtMinShare (f.shape 2) = true := by decide +kernel
  have starved : f.isAtFairShare (f.shape 2) = false := by decide +kernel
  obtain ⟨-, below, second⟩ := updatePacing_records rooted 5
  obtain ⟨-, -, -, met⟩ := below 1 (by decide)
  obtain ⟨-, first, other, -⟩ := below 2 (by decide)
  rw [if_pos guaranteed] at first
  rw [starved] at other
  have times : ((f.updatePacing 0 5).node 2).pacing = ⟨5, 0⟩ := by
    cases h : ((f.updatePacing 0 5).node 2).pacing with
    | mk least fair =>
      rw [h] at first other
      exact congrArg₂ Pacing.mk first other
  exact ⟨rooted, rooted', more, met (by decide +kernel), times,
    (second g 0 6 rooted' 2 (by decide) 2 (by decide) more).1 guaranteed⟩

end Forest
end FairShare
