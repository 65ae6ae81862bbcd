import Mathlib.Data.List.Lattice
import Mathlib.Data.List.Nodup
import Mathlib.Data.List.Pairwise
import FairShare.Forest.Report

/-!
Shapes as lists.  The parts of a shape are the shapes of its queues, each before those below it.  A
fact about a pass over a shape is a fact about its parts, and every pass over a list of shapes is a
map, so that proofs go by induction on one shape at a time.
-/

namespace FairShare
namespace Shape

@[elab_as_elim, induction_eliminator]
theorem induct {motive : Shape → Prop}
    (node : ∀ q below, (∀ s ∈ below, motive s) → motive (.node q below)) (s : Shape) : motive s :=
  match s with
  | .node q below => node q below fun s _ => induct node s

@[simp] theorem id_node (q : QueueId) (below : List Shape) : (node q below).id = q := rfl

@[simp] theorem subtrees_node (q : QueueId) (below : List Shape) :
    (node q below).subtrees = below := rfl

mutual

/-- The shapes of the queues of a shape, each before those below it. -/
def parts : Shape → List Shape
  | .node q below => .node q below :: partsOf below

def partsOf : List Shape → List Shape
  | [] => []
  | s :: rest => s.parts ++ partsOf rest

end

/-- The queues of a shape, each before those below it. -/
def ids (s : Shape) : List QueueId := s.parts.map id

theorem partsOf_eq_flatMap (l : List Shape) : partsOf l = l.flatMap parts := by
  induction l with
  | nil => rfl
  | cons s rest ih => rw [partsOf, List.flatMap_cons, ih]

theorem parts_node (q : QueueId) (below : List Shape) :
    (node q below).parts = node q below :: below.flatMap parts := by
  rw [parts, partsOf_eq_flatMap]

theorem ids_node (q : QueueId) (below : List Shape) :
    (node q below).ids = q :: below.flatMap ids := by
  rw [ids, parts_node, List.map_cons, List.map_flatMap]
  rfl

theorem mem_parts_node {t : Shape} {q : QueueId} {below : List Shape} :
    t ∈ (node q below).parts ↔ t = node q below ∨ ∃ s ∈ below, t ∈ s.parts := by
  rw [parts_node, List.mem_cons, List.mem_flatMap]

theorem mem_ids_node {p q : QueueId} {below : List Shape} :
    p ∈ (node q below).ids ↔ p = q ∨ ∃ s ∈ below, p ∈ s.ids := by
  rw [ids_node, List.mem_cons, List.mem_flatMap]

theorem self_mem_parts (s : Shape) : s ∈ s.parts := by
  cases s
  exact mem_parts_node.2 (.inl rfl)

theorem id_mem_ids (s : Shape) : s.id ∈ s.ids := List.mem_map_of_mem s.self_mem_parts

theorem id_mem_ids_of_mem_parts {s t : Shape} (h : t ∈ s.parts) : t.id ∈ s.ids :=
  List.mem_map_of_mem h

theorem length_ids_pos (s : Shape) : 0 < s.ids.length := List.length_pos_of_mem s.id_mem_ids

theorem parts_trans {s t u : Shape} (ht : t ∈ s.parts) (hu : u ∈ t.parts) : u ∈ s.parts := by
  induction s with
  | node q below ih =>
    rcases mem_parts_node.1 ht with rfl | ⟨s, hs, ht⟩
    · exact hu
    · exact mem_parts_node.2 (.inr ⟨s, hs, ih s hs ht⟩)

theorem ids_subset_of_mem_parts {s t : Shape} (h : t ∈ s.parts) : t.ids ⊆ s.ids := by
  intro p hp
  obtain ⟨u, hu, rfl⟩ := List.mem_map.1 hp
  exact id_mem_ids_of_mem_parts (parts_trans h hu)

theorem ids_sublist_flatMap {s : Shape} {below : List Shape} (h : s ∈ below) :
    s.ids.Sublist (below.flatMap ids) := by
  rw [List.flatMap_def]
  exact List.sublist_flatten_of_mem (List.mem_map_of_mem h)

theorem length_ids_lt {q : QueueId} {below : List Shape} {s : Shape} (h : s ∈ below) :
    s.ids.length < (node q below).ids.length := by
  rw [ids_node, List.length_cons]
  exact Nat.lt_succ_of_le (ids_sublist_flatMap h).length_le

/-- The queues of a part stand together in the list of all queues. -/
theorem ids_sublist_of_mem_parts {s t : Shape} (h : t ∈ s.parts) : t.ids.Sublist s.ids := by
  induction s with
  | node q below ih =>
    rcases mem_parts_node.1 h with rfl | ⟨s, hs, ht⟩
    · exact .refl _
    · rw [ids_node]
      exact .cons _ ((ih s hs ht).trans (ids_sublist_flatMap hs))

/-- Among distinct queues, siblings have no queue in common. -/
theorem eq_of_mem_ids {q p : QueueId} {below : List Shape} (distinct : (node q below).ids.Nodup)
    {s t : Shape} (hs : s ∈ below) (ht : t ∈ below) (ps : p ∈ s.ids) (pt : p ∈ t.ids) : s = t := by
  rw [ids_node, List.nodup_cons] at distinct
  by_contra hne
  -- Lists with a joint list without duplicates are disjoint in pairs.
  have apart := (List.nodup_flatMap.1 distinct.2).2
  have : Std.Symm (Function.onFun List.Disjoint ids) := ⟨fun _ _ h => List.Disjoint.symm h⟩
  exact apart.forall hs ht hne ps pt

/-- Among distinct queues, the root is not below itself. -/
theorem not_mem_ids_of_mem_below {q : QueueId} {below : List Shape}
    (distinct : (node q below).ids.Nodup) {s : Shape} (hs : s ∈ below) : q ∉ s.ids := by
  rw [ids_node, List.nodup_cons] at distinct
  exact fun hq => distinct.1 (List.mem_flatMap.2 ⟨s, hs, hq⟩)

theorem nodup_ids_of_mem_parts {s t : Shape} (distinct : s.ids.Nodup) (h : t ∈ s.parts) :
    t.ids.Nodup := distinct.sublist (ids_sublist_of_mem_parts h)

end Shape

namespace Forest

theorem visitAll_eq_flatMap (depth : Nat) (l : List Shape) :
    visitAll depth l = l.flatMap (visit depth) := by
  induction l with
  | nil => rfl
  | cons s rest ih => rw [visitAll, List.flatMap_cons, ih]

theorem map_fst_visit (s : Shape) (depth : Nat) : (visit depth s).map Prod.fst = s.ids := by
  induction s generalizing depth with
  | node q below ih =>
    rw [visit, List.map_cons, visitAll_eq_flatMap, List.map_flatMap, Shape.ids_node]
    congr 1
    exact List.flatMap_congr fun s hs => ih s hs (depth + 1)

theorem queues_eq_ids (f : Forest) (q : QueueId) : f.queues q = (f.shape q).ids :=
  map_fst_visit _ 0

theorem usagesBelow_eq_map (f : Forest) (l : List Shape) :
    f.usagesBelow l = l.map f.usageBelow := by
  induction l with
  | nil => rfl
  | cons s rest ih => rw [usagesBelow, List.map_cons, ih]

theorem standings_eq_map (f : Forest) (l : List Shape) : f.standings l = l.map f.standing := by
  induction l with
  | nil => rfl
  | cons s rest ih => rw [standings, List.map_cons, ih]

end Forest
end FairShare
