import FairShare.Forest.Assignment
import FairShare.Proofs.Ranked
import FairShare.Proofs.Reordered
import FairShare.Proofs.Serving

/-!
The leaves below a queue in the order in which they are offered a machine: depth first, siblings in
the order of the policy of the queue above them.  A leaf may take part if every queue on the way
down to it accepts the machine and one of its applications has a first request that fits.

The order of siblings is a parameter of the walk.  The order of an offer (`Forest.ranking`) is the
stable sort of the library (`Forest.stableRanking`) if every policy is a total preorder.
-/

namespace FairShare

/-- A way to order siblings, each with the leaves below it, by a policy. -/
abbrev Ranking := Policy → List (Shape × List QueueId) → List (Shape × List QueueId)

namespace Forest

/-- The order in which siblings are offered a machine. -/
def ranking (f : Forest) : Ranking := fun p siblings => f.rankBy p Prod.fst siblings

/-- Siblings in stable ascending order. -/
def stableRanking (f : Forest) : Ranking := fun p siblings =>
  siblings.mergeSort fun a b => (p.compare (f.standing a.1) (f.standing b.1)).isLE

mutual

/-- The leaves of a shape, depth first. -/
def walk (f : Forest) (rank : Ranking) : Shape → List QueueId
  | .node q below =>
    match (f.node q).body with
    | .composite _ => (rank (f.node q).policy (f.walks rank below)).flatMap Prod.snd
    | .leaf _ => [q]
    | .scripted _ => []

def walks (f : Forest) (rank : Ranking) : List Shape → List (Shape × List QueueId)
  | [] => []
  | s :: rest => (s, f.walk rank s) :: f.walks rank rest

end

/-- Whether every queue of a shape on the way down to a leaf accepts a machine. -/
def isOpen (f : Forest) (machine : Machine) (s : Shape) (leaf : QueueId) : Bool :=
  (s.parts.filter fun t => t.ids.contains leaf).all fun t => f.accepts machine t

/-- Whether a leaf may take a machine and has a request that fits. -/
def grantsAt (f : Forest) (machine : Machine) (s : Shape) (leaf : QueueId) : Bool :=
  f.isOpen machine s leaf && ((f.node leaf).offerable machine.available).isSome

theorem isOpen_iff {f : Forest} {machine : Machine} {s : Shape} {leaf : QueueId} :
    f.isOpen machine s leaf = true ↔
      ∀ t ∈ s.parts, leaf ∈ t.ids → f.accepts machine t = true := by
  simp only [isOpen, List.all_eq_true, List.mem_filter, List.contains_iff_mem, and_imp]

theorem walks_eq_map (f : Forest) (rank : Ranking) (l : List Shape) :
    f.walks rank l = l.map fun s => (s, f.walk rank s) := by
  induction l with
  | nil => rfl
  | cons s rest ih => rw [walks, List.map_cons, ih]

theorem offers_eq_map (machine : Machine) (l : List Shape) :
    offers machine l = l.map fun s => (s, offer machine s) := by
  induction l with
  | nil => rfl
  | cons s rest ih => rw [offers, List.map_cons, ih]

/-- Siblings in the order of a policy. -/
def inOrder (f : Forest) (p : Policy) (siblings : List Shape) : List Shape :=
  ranked (fun a b => p.compare (f.standing a) (f.standing b)) siblings

theorem mem_inOrder {f : Forest} {p : Policy} {siblings : List Shape} {s : Shape} :
    s ∈ f.inOrder p siblings ↔ s ∈ siblings := mem_ranked

theorem rankBy_eq_ranked {α : Type} (f : Forest) (p : Policy) (shape : α → Shape) (l : List α) :
    f.rankBy p shape l =
      ranked (fun a b => p.compare (f.standing (shape a)) (f.standing (shape b))) l := by
  rw [rankBy, ranked_map, List.map_map]
  exact List.map_id _

theorem rankBy_map {α : Type} (f : Forest) (p : Policy) (h : Shape → α) (l : List Shape) :
    f.rankBy p Prod.fst (l.map fun s => (s, h s)) = (f.inOrder p l).map fun s => (s, h s) := by
  rw [rankBy_eq_ranked, ranked_map]
  rfl

theorem walk_of_composite {f : Forest} {q : QueueId} {c : Composite}
    (h : (f.node q).body = .composite c) (below : List Shape) :
    f.walk f.ranking (.node q below) =
      (f.inOrder (f.node q).policy below).flatMap (f.walk f.ranking) := by
  rw [walk, h, walks_eq_map]
  show (f.rankBy _ Prod.fst _).flatMap Prod.snd = _
  rw [rankBy_map, List.flatMap_map]

theorem walk_of_leaf {f : Forest} {q : QueueId} {l : Leaf} (h : (f.node q).body = .leaf l)
    (rank : Ranking) (below : List Shape) : f.walk rank (.node q below) = [q] := by
  rw [walk, h]

theorem mem_ids_of_mem_walk {f : Forest} {s : Shape} {leaf : QueueId}
    (h : leaf ∈ f.walk f.ranking s) : leaf ∈ s.ids := by
  induction s with
  | node q below ih =>
    cases hb : (f.node q).body with
    | composite c =>
      rw [walk_of_composite hb, List.mem_flatMap] at h
      obtain ⟨s, hs, hleaf⟩ := h
      exact Shape.mem_ids_node.2 (.inr ⟨s, mem_inOrder.1 hs, ih s (mem_inOrder.1 hs) hleaf⟩)
    | leaf l =>
      rw [walk_of_leaf hb, List.mem_singleton] at h
      exact Shape.mem_ids_node.2 (.inl h)
    | scripted a =>
      rw [walk, hb] at h
      cases h

/-- A leaf of a shape is on the walk. -/
theorem mem_walk {f : Forest} {s : Shape} {leaf : QueueId} (hleaf : leaf ∈ s.ids) {l : Leaf}
    (carried : f.Carries s) (hb : (f.node leaf).body = .leaf l) : leaf ∈ f.walk f.ranking s := by
  induction s with
  | node q below ih =>
    rcases Shape.mem_ids_node.1 hleaf with rfl | ⟨s, hs, hleaf⟩
    · rw [walk_of_leaf hb]
      exact List.mem_singleton_self leaf
    · rcases carried.body_root with ⟨c, hq⟩ | ⟨l, hq⟩
      · rw [walk_of_composite hq]
        exact List.mem_flatMap.2 ⟨s, mem_inOrder.2 hs, ih s hs hleaf (carried.of_mem_below hs)⟩
      · rw [carried.below_leaf hq] at hs
        cases hs

/-- Under total preorders the order of offers is the stable one. -/
theorem walk_stableRanking {f : Forest} {s : Shape}
    (orders : ∀ q ∈ s.ids, Std.TransCmp (f.node q).policy.compare) :
    f.walk f.stableRanking s = f.walk f.ranking s := by
  induction s with
  | node q below ih =>
    have each : f.walks f.stableRanking below = f.walks f.ranking below := by
      rw [walks_eq_map, walks_eq_map]
      refine List.map_congr_left fun s hs => ?_
      rw [ih s hs fun p hp => orders p (Shape.mem_ids_node.2 (.inr ⟨s, hs, hp⟩))]
    -- Siblings stand with the leaves below them, which the policy does not look at.
    have order := orders q (Shape.id_mem_ids _)
    have pulled : Std.TransCmp fun a b : Shape × List QueueId =>
        (f.node q).policy.compare (f.standing a.1) (f.standing b.1) :=
      { eq_swap := Std.OrientedCmp.eq_swap
        isLE_trans := Std.TransCmp.isLE_trans }
    rw [walk, walk, each]
    show (match (f.node q).body with
      | .composite _ => (f.stableRanking _ _).flatMap Prod.snd
      | .leaf _ => [q]
      | .scripted _ => []) = _
    rw [stableRanking, ranking, rankBy_eq_ranked, ranked_eq_mergeSort]

end Forest
end FairShare
