import FairShare.Proofs.Handing
import FairShare.Proofs.Pacing
import FairShare.Proofs.Recount

/-!
Repeated updates.  An update counts demand, hands the capacity down and records times.  Each of the
three leaves alone what it did before, and what the others wrote after it; so an update that is
repeated at the same time changes nothing.
-/

namespace FairShare
namespace Forest

variable {f : Forest} {root : QueueId}

theorem Splits.of_uncounted {g : Forest} {kind : ShareKind} {s : Shape} (splits : f.Splits kind s)
    (same : g.uncounted = f.uncounted) : g.Splits kind s where
  follows := splits.follows.of_uncounted same
  policy p hp composite := by
    rw [field_of_uncounted Node.isComposite Node.uncounted_isComposite same] at composite
    rw [field_of_uncounted Node.policy Node.uncounted_policy same]
    exact splits.policy p hp composite

/-- A forest with the demands and the shares that an update of another one gives it. -/
structure Updated (f : Forest) (root : QueueId) (capacity : Resource) (g : Forest) : Prop where
  kept : Keeps f g
  shape : g.shape root = f.shape root
  demands : AgreeOn (f.shape root).ids (f.updateDemand root) g
  splits : g.Splits .fair (g.shape root)
  shares : ∃ before, Distributed .fair root capacity before g

theorem updated_distribute (splits : f.Splits .fair (f.shape root)) (capacity : Resource) :
    Updated f root capacity ((f.updateDemand root).distribute .fair root capacity) := by
  have counted : (f.updateDemand root).uncounted = f.uncounted := uncounted_countDemand _ f
  have shared := unshared_distribute .fair (f.updateDemand root) root capacity
  have shape := shape_of_uncounted counted root
  have shape' := (shape_of_unshared shared root).trans shape
  have splits' : (f.updateDemand root).Splits .fair (f.shape root) := splits.of_uncounted counted
  refine ⟨?_, shape', ?_, ?_, ?_⟩
  · exact (keeps_of_uncounted counted).trans (keeps_of_unshared shared)
  · exact .of_keeps (keeps_of_unshared shared) fun p _ => body_of_unshared shared p
  · rw [shape']
    exact splits'.of_unshared shared
  · rw [← shape] at splits'
    exact ⟨_, distributed_distribute splits'.follows capacity⟩

namespace Updated

variable {g h : Forest} {capacity : Resource}

/-- Times that are recorded afterwards do not matter. -/
theorem of_unpaced (updated : Updated f root capacity g) (paced : h.unpaced = g.unpaced) :
    Updated f root capacity h := by
  have kept := keeps_of_unpaced paced
  have shape := shape_of_unpaced paced root
  have alike : SplitAlike .fair [] g h := .of_unpaced paced
  obtain ⟨before, shares⟩ := updated.shares
  refine ⟨updated.kept.trans kept, shape.trans updated.shape, ?_, ?_, before, ?_⟩
  · exact updated.demands.trans (.of_keeps kept fun p _ => body_of_unpaced paced p)
  · rw [shape]
    exact alike.splits kept.size updated.splits
  · exact shares.of_unpaced paced

theorem updateDemand_eq (updated : Updated f root capacity g) (tree : f.IsTree root) :
    g.updateDemand root = g := updateDemand_of_agreeOn tree updated.shape updated.demands

theorem distribute_eq (updated : Updated f root capacity g) :
    g.distribute .fair root capacity = g := by
  obtain ⟨before, shares⟩ := updated.shares
  exact shares.distribute_eq updated.splits

end Updated

/-- After an update, each of its three passes changes nothing. -/
theorem tick_tick (tree : f.IsTree root) (splits : f.Splits .fair (f.shape root))
    (capacity : Resource) (now : Nat) :
    (f.tick root capacity now).tick root capacity now = f.tick root capacity now := by
  have handed := updated_distribute splits capacity
  have ticked : f.tick root capacity now = paceBelow now (f.shape root)
      ((f.updateDemand root).distribute .fair root capacity) := by
    rw [tick, updatePacing, handed.shape]
  -- Each pass of the second update finds what it would do done already.
  rw [ticked]
  generalize (f.updateDemand root).distribute .fair root capacity = g at handed
  have updated := handed.of_unpaced (unpaced_paceBelow now (f.shape root) g)
  have carried := handed.kept.carries tree.carries
  calc
    (paceBelow now (f.shape root) g).tick root capacity now =
        (paceBelow now (f.shape root) g).updatePacing root now := by
      rw [tick, updated.updateDemand_eq tree, updated.distribute_eq]
    _ = paceBelow now (f.shape root) (paceBelow now (f.shape root) g) := by
      rw [updatePacing, updated.shape]
    _ = paceBelow now (f.shape root) g := paceBelow_paceBelow carried.known carried.distinct

/-- An update of demand that is repeated changes nothing, and neither does an update of the
scheduler that is repeated at the same time, if the shares that the policies write depend on the
total and on the names, weights and demands of the children in their order. -/
theorem update_update (tree : f.IsTree root) :
    (f.updateDemand root).updateDemand root = f.updateDemand root ∧
      ((∀ q ∈ f.queues root, (f.node q).isComposite = true →
          (f.node q).policy.WritesByDemand .fair) →
        ∀ (d : Scheduler) (now : Nat),
          d.update (d.update f root now) root now = d.update f root now) := by
  refine ⟨updateDemand_updateDemand tree, fun policies d now => ?_⟩
  have splits : f.Splits .fair (f.shape root) :=
    ⟨tree.rooted.follows, fun p hp composite => policies p (f.queues_eq_ids root ▸ hp) composite⟩
  exact tick_tick tree splits d.capacity now

/-- Shares up to the demand of each sibling, but for one queue that keeps the share it has. -/
def sparing : Policy :=
  { Policy.demand with
    split := fun total siblings => siblings.map fun c =>
      if c.name = "root.a" then c.fairShare else c.demand.meet total }

theorem writesByDemand_sparing : sparing.WritesByDemand .fair := by
  intro total l m same i s t hs ht
  have key : s.splitKey = t.splitKey := by
    have same := congrArg (fun keys => keys[i]?) same
    simp only [List.getElem?_map, hs, ht, Option.map_some] at same
    exact Option.some.inj same
  have name : s.name = t.name := congrArg Prod.fst key
  have demand : s.demand = t.demand := congrArg (fun k => k.2.2) key
  have entry (l : List Standing) (c : Standing) (hc : l[i]? = some c) :
      (sparing.splitOf .fair total l)[i]? =
        some (if c.name = "root.a" then c.fairShare else c.demand.meet total) := by
    show (l.map _)[i]? = _
    rw [List.getElem?_map, hc, Option.map_some]
  rw [entry l s hs, entry m t ht, name, demand]
  -- Siblings that agree have one name, so the policy spares both of them or neither.
  by_cases spared : t.name = "root.a"
  · right
    rw [if_pos spared, if_pos spared]
    exact ⟨rfl, rfl⟩
  · left
    rw [if_neg spared, if_neg spared]

def sparedSample : Forest :=
  pinnedSample.mapNodes fun n => { n with policy := sparing, fairShare := .ofMemoryCores 7 3 }

/-- An update leaves out a queue with an old demand, and so does the next one; and a queue whose
share no policy writes keeps it through both. -/
theorem update_update_sample :
    pinnedSample.IsTree 0 ∧ 3 ∉ pinnedSample.refreshes 0 ∧
      (pinnedSample.updateDemand 0).updateDemand 0 = pinnedSample.updateDemand 0 ∧
      (∀ capacity now, Scheduler.update { capacity }
        (Scheduler.update { capacity } pinnedSample 0 now) 0 now =
          Scheduler.update { capacity } pinnedSample 0 now) ∧
      let g := Scheduler.update { capacity := .ofMemoryCores 20 9 } sparedSample 0 5
      Scheduler.update { capacity := .ofMemoryCores 20 9 } g 0 5 = g ∧
        (sparedSample.queues 0).map (fun q => (g.node q).fairShare) =
          [.ofMemoryCores 20 9, .ofMemoryCores 7 3, .ofMemoryCores 7 1, .ofMemoryCores 0 4] := by
  have tree : pinnedSample.IsTree 0 := by decide
  have spared : sparedSample.IsTree 0 := by decide +kernel
  have named : ∀ q ∈ pinnedSample.queues 0, (pinnedSample.node q).policy = .demand := by
    rw [show pinnedSample.queues 0 = [0, 1, 2, 3] by decide]
    simp [pinnedSample, node]
  have spares : ∀ q ∈ sparedSample.queues 0, (sparedSample.node q).policy = sparing := by
    rw [show sparedSample.queues 0 = [0, 1, 2, 3] by decide +kernel]
    simp [sparedSample, pinnedSample, mapNodes, node]
  obtain ⟨recount, repeated⟩ := update_update tree
  refine ⟨tree, by decide +kernel, recount, fun capacity now => repeated ?_ _ now, ?_, ?_⟩
  · intro q hq _
    rw [named q hq]
    exact (Policy.splitsByDemand_of_mem_catalogue (by simp [Policy.catalogue]) .fair).writes
  · refine (update_update spared).2 (fun q hq _ => ?_) _ 5
    rw [spares q hq]
    exact writesByDemand_sparing
  · decide +kernel

end Forest
end FairShare
