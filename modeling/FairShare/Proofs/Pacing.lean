import FairShare.Proofs.Passes

/-!
How the times are recorded.  The pass over a shape goes over its parts, and what it records for a
queue depends on usages, demands and shares, which it does not change.  So every queue gets the
times that the forest before the pass gives it, and a second pass at the same time records nothing
new.
-/

namespace FairShare
namespace Forest

/-- Whether a queue uses the smaller of what it is guaranteed and what it demands. -/
def isAtMinShare (f : Forest) (s : Shape) : Bool :=
  ((f.minShare s.id).meet (f.node s.id).demand).fitsIn (f.usageBelow s)

/-- Whether a queue uses the smaller of the threshold's part of its fair share and what it demands.
-/
def isAtFairShare (f : Forest) (s : Shape) : Bool :=
  (((f.node s.id).fairShare.scale (f.allocation.threshold (f.node s.id).name)).meet
    (f.node s.id).demand).fitsIn (f.usageBelow s)

/-- The times of the queue of a shape once they are recorded. -/
def paced (f : Forest) (now : Nat) (s : Shape) : Pacing where
  atMinShare := if f.isAtMinShare s then now else (f.node s.id).pacing.atMinShare
  atFairShare := if f.isAtFairShare s then now else (f.node s.id).pacing.atFairShare

/-- Records the times of the queue of a shape. -/
def record (now : Nat) (f : Forest) (s : Shape) : Forest :=
  f.pace s.id (f.usageBelow s) (f.node s.id).demand now

section

variable {f g : Forest} {now : Nat} {p : QueueId} {s t : Shape} {l : List Shape}

theorem usageBelow_congr (same : ∀ p ∈ s.ids, (g.node p).body = (f.node p).body) :
    g.usageBelow s = f.usageBelow s := by
  induction s with
  | node q below ih =>
    have each : below.map g.usageBelow = below.map f.usageBelow :=
      List.map_congr_left fun s hs =>
        ih s hs fun p hp => same p (Shape.mem_ids_node.2 (.inr ⟨s, hs, hp⟩))
    rw [usageBelow, usageBelow, same q (Shape.id_mem_ids _), usagesBelow_eq_map,
      usagesBelow_eq_map, each]

theorem paceAll_eq_foldl (now : Nat) (l : List Shape) (f : Forest) :
    paceAll now l f = l.foldl (fun f s => paceBelow now s f) f := by
  induction l generalizing f with
  | nil => rfl
  | cons s rest ih => rw [paceAll, List.foldl_cons, ih]

/-- The pass over a shape records the times of its parts, one after the other. -/
theorem paceBelow_eq_foldl (now : Nat) (s : Shape) (f : Forest) :
    paceBelow now s f = s.parts.foldl (record now) f := by
  induction s generalizing f with
  | node q below ih =>
    have first : f.pace q (f.usageBelow (.node q below)) (f.node q).demand now =
        f.record now (.node q below) := rfl
    rw [paceBelow, Shape.parts_node, List.foldl_cons, first, paceAll_eq_foldl, List.foldl_flatMap]
    apply List.foldl_ext
    intro g s hs
    exact ih s hs g

theorem unpaced_record (f : Forest) (s : Shape) : (f.record now s).unpaced = f.unpaced :=
  mapNodes_update (by intro n; rfl) f s.id

theorem node_record_self (known : s.id < f.nodes.size) :
    (f.record now s).node s.id = { f.node s.id with pacing := f.paced now s } := by
  rw [record, pace, node_update_self f _ known]
  rfl

theorem node_record_of_ne (h : p ≠ s.id) : (f.record now s).node p = f.node p :=
  node_update_of_ne f _ h

section

variable (h : g.unpaced = f.unpaced)

include h

theorem demand_of_unpaced (q : QueueId) : (g.node q).demand = (f.node q).demand := by
  rw [Node.demand, Node.demand, body_of_unpaced h]

theorem usageBelow_of_unpaced (s : Shape) : g.usageBelow s = f.usageBelow s :=
  usageBelow_congr fun p _ => body_of_unpaced h p

theorem isAtMinShare_of_unpaced (s : Shape) : g.isAtMinShare s = f.isAtMinShare s := by
  rw [isAtMinShare, isAtMinShare, (keeps_of_unpaced h).minShare, demand_of_unpaced h,
    usageBelow_of_unpaced h]

theorem isAtFairShare_of_unpaced (s : Shape) : g.isAtFairShare s = f.isAtFairShare s := by
  have kept := keeps_of_unpaced h
  have share := field_of_unpaced Node.fairShare (fun _ => rfl) h s.id
  rw [isAtFairShare, isAtFairShare, kept.allocation, kept.name, share, demand_of_unpaced h,
    usageBelow_of_unpaced h]

/-- What is recorded for a queue depends on what is seen without the times, and on its own times. -/
theorem paced_congr (own : (g.node s.id).pacing = (f.node s.id).pacing) :
    g.paced now s = f.paced now s := by
  rw [paced, paced, isAtMinShare_of_unpaced h, isAtFairShare_of_unpaced h, own]

end

theorem node_foldl_record_of_not_mem (hp : p ∉ l.map Shape.id) (f : Forest) :
    (l.foldl (record now) f).node p = f.node p := by
  induction l generalizing f with
  | nil => rfl
  | cons s rest ih =>
    rw [List.map_cons, List.mem_cons, not_or] at hp
    calc
      (rest.foldl (record now) (f.record now s)).node p = (f.record now s).node p := ih hp.2 _
      _ = f.node p := node_record_of_ne hp.1

theorem node_foldl_record (known : ∀ s ∈ l, s.id < f.nodes.size)
    (distinct : (l.map Shape.id).Nodup) (ht : t ∈ l) :
    (l.foldl (record now) f).node t.id = { f.node t.id with pacing := f.paced now t } := by
  induction l generalizing f with
  | nil => cases ht
  | cons s rest ih =>
    obtain ⟨hs, distinct⟩ := List.nodup_cons.1 distinct
    rw [List.foldl_cons]
    rcases List.mem_cons.1 ht with rfl | ht
    · rw [node_foldl_record_of_not_mem hs, node_record_self (known t (by simp))]
    · -- The queue has its own times still when its turn comes.
      have other : t.id ≠ s.id := fun e => hs (e ▸ List.mem_map_of_mem ht)
      have unchanged : (f.record now s).node t.id = f.node t.id := node_record_of_ne other
      have known' (u : Shape) (hu : u ∈ rest) : u.id < (f.record now s).nodes.size := by
        rw [(keeps_of_unpaced (unpaced_record f s)).size]
        exact known u (List.mem_cons_of_mem s hu)
      rw [ih known' distinct ht, unchanged,
        paced_congr (unpaced_record f s) (congrArg Node.pacing unchanged)]

/-- Every queue of a shape gets the times that the forest before the pass gives it. -/
theorem node_paceBelow (known : ∀ p ∈ s.ids, p < f.nodes.size) (distinct : s.ids.Nodup)
    (ht : t ∈ s.parts) :
    (paceBelow now s f).node t.id = { f.node t.id with pacing := f.paced now t } := by
  rw [paceBelow_eq_foldl]
  apply node_foldl_record _ distinct ht
  exact fun u hu => known u.id (Shape.id_mem_ids_of_mem_parts hu)

theorem node_paceBelow_of_not_mem (hp : p ∉ s.ids) (f : Forest) :
    (paceBelow now s f).node p = f.node p := by
  rw [paceBelow_eq_foldl]
  exact node_foldl_record_of_not_mem hp f

/-- Times that were recorded just now are not recorded anew. -/
theorem paced_paceBelow (known : ∀ p ∈ s.ids, p < f.nodes.size) (distinct : s.ids.Nodup)
    (ht : t ∈ s.parts) : (paceBelow now s f).paced now t = f.paced now t := by
  have own : ((paceBelow now s f).node t.id).pacing = f.paced now t := by
    rw [node_paceBelow known distinct ht]
  -- What decides about a time is the same, and the time recorded is now either way.
  have settled (c : Bool) (old : Nat) :
      (if c then now else if c then now else old) = if c then now else old := by
    cases c <;> rfl
  have unpaced := unpaced_paceBelow now s f
  rw [paced, isAtMinShare_of_unpaced unpaced, isAtFairShare_of_unpaced unpaced, own]
  simp only [paced, settled]

/-- A second pass at the same time changes nothing. -/
theorem paceBelow_paceBelow (known : ∀ p ∈ s.ids, p < f.nodes.size) (distinct : s.ids.Nodup) :
    paceBelow now s (paceBelow now s f) = paceBelow now s f := by
  have once := keeps_paceBelow now s f
  have twice := keeps_paceBelow now s (paceBelow now s f)
  have metrics : (paceBelow now s (paceBelow now s f)).unpaced.metrics =
      (paceBelow now s f).unpaced.metrics := by rw [unpaced_paceBelow]
  have known' (p : QueueId) (hp : p ∈ s.ids) : p < (paceBelow now s f).nodes.size := by
    rw [once.size]
    exact known p hp
  apply eq_of_node twice.allocation metrics twice.size
  intro q
  by_cases hq : q ∈ s.ids
  · obtain ⟨t, ht, rfl⟩ := List.mem_map.1 hq
    rw [node_paceBelow known' distinct ht, paced_paceBelow known distinct ht,
      node_paceBelow known distinct ht]
  · exact node_paceBelow_of_not_mem hq _

end

end Forest
end FairShare
