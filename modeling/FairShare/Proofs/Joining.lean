import FairShare.Proofs.Growth
import FairShare.Proofs.Roster

/-!
A queue that joins a forest.  It is created below a composite queue and listed there last.  Whatever
was created below whom stays so, and the new queue is below the one it joins and all queues above
that.
-/

namespace FairShare
namespace Forest

section

variable {f : Forest} {n : Node} {p q r : QueueId}

theorem node_add (f : Forest) (n : Node) (q : QueueId) :
    (f.add n).1.node q = if q = f.nodes.size then n else f.node q := by
  split
  case isTrue h => rw [h, node_add_size]
  case isFalse h =>
    rcases Nat.lt_or_gt_of_ne h with h | h
    · exact node_add_of_lt f n h
    · have size : (f.add n).1.nodes.size ≤ q := by
        rw [add, Array.size_push]
        exact h
      rw [node_of_size_le h.le, node_of_size_le size]

/-- What the roster shows of a queue once another one was added and listed. -/
theorem field_grow {α : Type} (field : Node → α) (unseen : ∀ n, field n.roster = field n)
    (q : QueueId) :
    field ((f.grow n p).node q) = if q = f.nodes.size then field n else field (f.node q) := by
  rw [grow, field_of_roster field unseen (roster_attach _ p _) q, node_add]
  split <;> rfl

/-- A new queue holds no application, and the others hold what they held. -/
theorem Creates.apps {g : Forest} (fg : Creates f g) (q : QueueId) :
    (g.node q).apps = (f.node q).apps := by
  rcases fg with kept | ⟨h, n, p, kept, -, -, empty, rfl⟩
  · exact kept.apps q
  rw [node_grow_field Node.mapComposite_apps, node_add, ← kept.apps q]
  split
  case isTrue new =>
    rw [empty, node_of_size_le new.ge]
    rfl
  case isFalse => rfl

theorem Creates.isScripted {g : Forest} (fg : Creates f g) (q : QueueId) :
    (g.node q).isScripted = (f.node q).isScripted := by
  rcases fg with kept | ⟨h, n, p, kept, plain, -, -, rfl⟩
  · exact kept.scripted q
  rw [field_grow Node.isScripted Node.roster_isScripted, ← kept.scripted q]
  split
  case isTrue new =>
    rw [plain, node_of_size_le new.ge]
    rfl
  case isFalse => rfl

/-- A queue without children that comes to a composite queue that is held. -/
structure Joins (f : Forest) (n : Node) (p : QueueId) : Prop where
  parent : n.parent = some p
  composite : (f.node p).isComposite = true
  held : (f.node p).released = false
  plain : n.isScripted = false
  childless : n.children = []

namespace Joins

variable (joins : f.Joins n p)

include joins

theorem lt_size : p < f.nodes.size := lt_size_of_isComposite joins.composite

theorem parent_iff : ((f.grow n p).node q).parent = some r ↔
    (q = f.nodes.size ∧ r = p) ∨ (f.node q).parent = some r := by
  rw [field_grow Node.parent Node.roster_parent]
  split
  case isTrue h =>
    have orphan : (f.node q).parent = none := by rw [node_of_size_le h.ge]; rfl
    rw [joins.parent, orphan]
    simp [h, eq_comm]
  case isFalse h => simp [h]

theorem lineage (lineage : f.Lineage) : (f.grow n p).Lineage := by
  -- Parents are among the queues that were there before.
  have parents {r q : QueueId} (h : ((f.grow n p).node q).parent = some r) :
      r < q ∧ r < f.nodes.size ∧ (f.node r).isComposite = true ∧ (f.node r).released = false := by
    rcases joins.parent_iff.1 h with ⟨rfl, rfl⟩ | h
    · exact ⟨joins.lt_size, joins.lt_size, joins.composite, joins.held⟩
    · have older := lineage.older h
      exact ⟨older, older.trans (lt_size_of_parent h), lineage.composite h, lineage.held h⟩
  refine ⟨fun h => (parents h).1, fun h => ?_, fun h => ?_⟩
  · obtain ⟨-, known, composite, -⟩ := parents h
    rw [field_grow Node.isComposite Node.roster_isComposite, if_neg known.ne]
    exact composite
  · obtain ⟨-, known, -, held⟩ := parents h
    rw [field_grow Node.released Node.roster_released, if_neg known.ne]
    exact held

theorem above_of_above (h : f.Above r q) : (f.grow n p).Above r q := by
  induction h with
  | parent h => exact .parent (joins.parent_iff.2 (.inr h))
  | further h _ ih => exact .further (joins.parent_iff.2 (.inr h)) ih

theorem above_iff (lineage : f.Lineage) (hq : q < f.nodes.size) :
    (f.grow n p).Above r q ↔ f.Above r q := by
  refine ⟨fun h => ?_, joins.above_of_above⟩
  induction h with
  | parent h => exact .parent ((joins.parent_iff.1 h).resolve_left fun new => hq.ne new.1)
  | further h _ ih =>
    have h := (joins.parent_iff.1 h).resolve_left fun new => hq.ne new.1
    exact .further h (ih ((lineage.older h).trans hq))

/-- The new queue is the only one that may be below a queue and was not. -/
theorem createdBelow (lineage : f.Lineage) (r : QueueId) :
    (f.grow n p).createdBelow r =
      f.createdBelow r ++ [f.nodes.size].filter fun q => r ∈ (f.grow n p).ancestors q := by
  rw [Forest.createdBelow, Forest.createdBelow, size_grow, List.range_succ, List.filter_append]
  congr 1
  refine List.filter_congr fun q hq => ?_
  rw [decide_eq_decide, (joins.lineage lineage).mem_ancestors, lineage.mem_ancestors,
    joins.above_iff lineage (List.mem_range.1 hq)]

theorem children (q : QueueId) : ((f.grow n p).node q).children =
    (f.node q).children ++ if q = p then [f.nodes.size] else [] := by
  rcases Nat.lt_trichotomy q f.nodes.size with h | rfl | h
  · rw [children_grow h]
    simp [joins.composite]
  · have none : (f.node f.nodes.size).children = [] := by rw [node_of_size_le le_rfl]; rfl
    rw [children_grow_size joins.composite, joins.childless, none, if_neg joins.lt_size.ne']
    rfl
  · have none : (f.node q).children = [] := by rw [node_of_size_le h.le]; rfl
    have size : (f.grow n p).nodes.size ≤ q := by rw [size_grow]; exact h
    rw [node_of_size_le size, none, if_neg (joins.lt_size.trans h).ne']
    rfl

theorem owned (owned : f.Owned) : (f.grow n p).Owned where
  toLineage := joins.lineage owned.toLineage
  plain q := by
    rw [field_grow Node.isScripted Node.roster_isScripted]
    split
    · exact joins.plain
    · exact owned.plain q
  once q := by
    have new : ∀ c ∈ (f.node q).children, ∀ d ∈ [f.nodes.size], c ≠ d := by
      intro c hc d hd
      rw [List.mem_singleton.1 hd]
      exact (lt_size_of_parent (owned.own hc)).ne
    rw [joins.children]
    split
    · exact List.nodup_append.2 ⟨owned.once q, List.nodup_singleton _, new⟩
    · simpa using owned.once q
  own {q c} h := by
    rw [joins.children, List.mem_append] at h
    rw [joins.parent_iff]
    rcases h with h | h
    · exact .inr (owned.own h)
    · split at h
      · next hq => exact .inl ⟨List.mem_singleton.1 h, hq⟩
      · cases h

theorem linked (linked : f.Linked) : (f.grow n p).Linked where
  toOwned := joins.owned linked.toOwned
  listed {q c} h := by
    rw [joins.children, List.mem_append]
    rcases joins.parent_iff.1 h with ⟨rfl, rfl⟩ | h
    · exact .inr (by simp)
    · exact .inl (linked.listed h)

end Joins

end

end Forest
end FairShare
