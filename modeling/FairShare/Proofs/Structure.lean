import Mathlib.Data.List.Nodup
import Mathlib.Data.Fintype.Card
import FairShare.Proofs.Shape

/-!
The structure of a forest: which queues there are and how they are listed.  A subtree is a tree if
its child lists lead to no queue twice; its shape then follows the child lists to their ends.  Two
forests are alike if they have the same queues in the same places, their siblings in any order.
-/

namespace FairShare
namespace Node

def isScripted (n : Node) : Bool :=
  match n.body with
  | .scripted _ => true
  | _ => false

/-- The applications that a queue holds; only a leaf holds any. -/
def apps (n : Node) : List App :=
  match n.body with
  | .leaf l => l.apps
  | _ => []

/-- The containers that run in a queue itself. -/
def running (n : Node) : List Container := n.apps.flatMap App.running

@[simp] theorem mapComposite_name (h : Composite → Composite) (n : Node) :
    (n.mapComposite h).name = n.name := by
  unfold mapComposite
  split <;> rfl

@[simp] theorem mapComposite_isScripted (h : Composite → Composite) (n : Node) :
    (n.mapComposite h).isScripted = n.isScripted := by
  cases hb : n.body <;> simp [mapComposite, isScripted, hb]

@[simp] theorem mapComposite_apps (h : Composite → Composite) (n : Node) :
    (n.mapComposite h).apps = n.apps := by
  cases hb : n.body <;> simp [mapComposite, apps, hb]

@[simp] theorem mapLeaf_name (h : Leaf → Leaf) (n : Node) : (n.mapLeaf h).name = n.name := by
  unfold mapLeaf
  split <;> rfl

@[simp] theorem mapLeaf_isScripted (h : Leaf → Leaf) (n : Node) :
    (n.mapLeaf h).isScripted = n.isScripted := by
  cases hb : n.body <;> simp [mapLeaf, isScripted, hb]

@[simp] theorem mapLeaf_children (h : Leaf → Leaf) (n : Node) :
    (n.mapLeaf h).children = n.children := by
  cases hb : n.body <;> simp [mapLeaf, children, hb]

theorem children_of_not_composite {n : Node} (h : ∀ c, n.body ≠ .composite c) :
    n.children = [] := by
  unfold children
  split
  · next c hc => exact absurd hc (h c)
  · rfl

theorem children_of_leaf {n : Node} {l : Leaf} (h : n.body = .leaf l) : n.children = [] :=
  children_of_not_composite (by simp [h])

theorem apps_of_leaf {n : Node} {l : Leaf} (h : n.body = .leaf l) : n.apps = l.apps := by
  rw [apps, h]

theorem apps_of_composite {n : Node} {c : Composite} (h : n.body = .composite c) : n.apps = [] := by
  rw [apps, h]

theorem body_of_isComposite {n : Node} (h : n.isComposite = true) : ∃ c, n.body = .composite c := by
  rw [isComposite] at h
  split at h
  · next c hc => exact ⟨c, hc⟩
  · cases h

theorem body_of_not_scripted {n : Node} (h : n.isScripted = false) :
    (∃ c, n.body = .composite c) ∨ ∃ l, n.body = .leaf l := by
  unfold isScripted at h
  cases hb : n.body with
  | composite c => exact .inl ⟨c, rfl⟩
  | leaf l => exact .inr ⟨l, rfl⟩
  | scripted s => simp [hb] at h

end Node

namespace Forest

theorem node_of_size_le {f : Forest} {q : QueueId} (h : f.nodes.size ≤ q) : f.node q = default := by
  have unknown : ¬ q < f.nodes.size := Nat.not_lt.2 h
  simp [node, Array.getD_eq_getD_getElem?, unknown]

/-- A queue that holds applications is one of the forest. -/
theorem lt_size_of_apps {f : Forest} {q : QueueId} (held : (f.node q).apps ≠ []) :
    q < f.nodes.size := by
  by_contra unknown
  rw [node_of_size_le (Nat.not_lt.1 unknown)] at held
  exact held rfl

theorem node_update (f : Forest) (p q : QueueId) (h : Node → Node) :
    (f.update q h).node p = if p = q ∧ q < f.nodes.size then h (f.node p) else f.node p := by
  split
  case isTrue hp =>
    obtain ⟨rfl, hlt⟩ := hp
    exact node_update_self f h hlt
  case isFalse hp =>
    by_cases hpq : p = q
    · have hge : ¬ q < f.nodes.size := fun hlt => hp ⟨hpq, hlt⟩
      simp [node, update, Array.getD_eq_getD_getElem?, hpq, hge]
    · exact node_update_of_ne f h hpq

/-- A forest is its allocation, its metrics and its queues. -/
theorem eq_of_node {f g : Forest} (allocation : g.allocation = f.allocation)
    (metrics : g.metrics = f.metrics) (size : g.nodes.size = f.nodes.size)
    (node : ∀ q, g.node q = f.node q) : g = f := by
  have nodes : g.nodes = f.nodes := by
    apply Array.ext size
    intro i hg hf
    have at_i := node i
    simpa [Forest.node, Array.getD_eq_getD_getElem?, hg, hf] using at_i
  cases f
  cases g
  simp_all

theorem shape_congr {f g : Forest} (size : g.nodes.size = f.nodes.size)
    (children : ∀ q, (g.node q).children = (f.node q).children) (q : QueueId) :
    g.shape q = f.shape q := by
  have unfold (n : Nat) (q : QueueId) : g.unfold n q = f.unfold n q := by
    induction n generalizing q with
    | zero => rfl
    | succ n ih =>
      have each : g.unfold n = f.unfold n := funext ih
      rw [Forest.unfold, Forest.unfold, children, each]
  rw [shape, shape, size, unfold]

/-- The queues below a queue, with the queue as root, form a tree of composite queues and leaves. -/
structure IsTree (f : Forest) (q : QueueId) : Prop where
  known : ∀ p ∈ f.queues q, p < f.nodes.size
  distinct : (f.queues q).Nodup
  plain : ∀ p ∈ f.queues q, (f.node p).isScripted = false

instance (f : Forest) (q : QueueId) : Decidable (f.IsTree q) :=
  decidable_of_iff ((∀ p ∈ f.queues q, p < f.nodes.size) ∧ (f.queues q).Nodup ∧
      ∀ p ∈ f.queues q, (f.node p).isScripted = false)
    ⟨fun h => ⟨h.1, h.2.1, h.2.2⟩, fun h => ⟨h.known, h.distinct, h.plain⟩⟩

/-- A shape whose queues are distinct queues of the forest, with children in any order. -/
structure Carries (f : Forest) (s : Shape) : Prop where
  known : ∀ p ∈ s.ids, p < f.nodes.size
  distinct : s.ids.Nodup
  plain : ∀ p ∈ s.ids, (f.node p).isScripted = false
  children : ∀ t ∈ s.parts, (f.node t.id).children.Perm (t.subtrees.map Shape.id)

/-- A shape that follows the child lists to their ends. -/
def Unfolds (f : Forest) (s : Shape) : Prop :=
  ∀ t ∈ s.parts, (f.node t.id).children = t.subtrees.map Shape.id

@[simp] theorem id_unfold (f : Forest) (n : Nat) (q : QueueId) : (f.unfold n q).id = q := by
  cases n <;> rfl

@[simp] theorem id_shape (f : Forest) (q : QueueId) : (f.shape q).id = q := id_unfold f _ q

theorem mem_queues_self (f : Forest) (q : QueueId) : q ∈ f.queues q := by
  have := (f.shape q).id_mem_ids
  rwa [← queues_eq_ids, id_shape] at this

/-- Fuel for every queue is fuel enough. -/
theorem unfolds_unfold {f : Forest} {n : Nat} {q : QueueId}
    (enough : (f.unfold n q).ids.length ≤ n) : f.Unfolds (f.unfold n q) := by
  induction n generalizing q with
  | zero => exact absurd enough (Nat.not_le.2 (Shape.length_ids_pos _))
  | succ n ih =>
    -- Every subtree has fewer queues than the whole, so the fuel lasts below it as well.
    intro t ht
    rcases Shape.mem_parts_node.1 ht with rfl | ⟨s, hs, ht⟩
    · simp only [Shape.id_node, Shape.subtrees_node, List.map_map, Function.comp_def, id_unfold,
        List.map_id']
    · have shorter := Shape.length_ids_lt (q := q) hs
      obtain ⟨c, hc, rfl⟩ := List.mem_map.1 hs
      exact ih (Nat.le_of_lt_succ (shorter.trans_le enough)) t ht

/-- A shape that follows the child lists is what the forest unfolds to. -/
theorem unfold_of_unfolds {f : Forest} {s : Shape} (h : f.Unfolds s) {n : Nat}
    (enough : s.ids.length ≤ n) : f.unfold n s.id = s := by
  induction s generalizing n with
  | node q below ih =>
    cases n with
    | zero => exact absurd enough (Nat.not_le.2 (Shape.length_ids_pos _))
    | succ n =>
      -- The fuel that is left is enough for each subtree.
      have children : (f.node q).children = below.map Shape.id := h _ (Shape.self_mem_parts _)
      have same (s : Shape) (hs : s ∈ below) : f.unfold n s.id = s :=
        ih s hs (fun t ht => h t (Shape.mem_parts_node.2 (.inr ⟨s, hs, ht⟩)))
          (Nat.le_of_lt_succ ((Shape.length_ids_lt hs).trans_le enough))
      have all : below.map (f.unfold n ∘ Shape.id) = below.map id := List.map_congr_left same
      rw [Shape.id_node, unfold, children, List.map_map, all, List.map_id]

theorem length_le_of_known {f : Forest} {l : List QueueId} (known : ∀ p ∈ l, p < f.nodes.size)
    (distinct : l.Nodup) : l.length ≤ f.nodes.size := by
  have among : l.Subperm (List.range f.nodes.size) :=
    distinct.subperm fun p hp => List.mem_range.2 (known p hp)
  calc
    l.length ≤ (List.range f.nodes.size).length := among.length_le
    _ = f.nodes.size := List.length_range

namespace Unfolds

variable {f : Forest} {s t : Shape} (h : f.Unfolds s) (enough : s.ids.length ≤ f.nodes.size)

include h enough

/-- Below a queue the forest unfolds to the part of the shape that belongs to the queue. -/
theorem shape_of_mem_parts (ht : t ∈ s.parts) : f.shape t.id = t := by
  apply unfold_of_unfolds fun u hu => h u (Shape.parts_trans ht hu)
  exact (Shape.ids_sublist_of_mem_parts ht).length_le.trans enough

/-- A shape consists of its root and of the shapes of the children. -/
theorem eq_node : s = .node s.id ((f.node s.id).children.map f.shape) := by
  cases s with
  | node q below =>
    have children : (f.node q).children = below.map Shape.id := h _ (Shape.self_mem_parts _)
    have each (t : Shape) (ht : t ∈ below) : (f.shape ∘ Shape.id) t = id t :=
      h.shape_of_mem_parts enough (Shape.mem_parts_node.2 (.inr ⟨t, ht, t.self_mem_parts⟩))
    rw [Shape.id_node, children, List.map_map, List.map_congr_left each, List.map_id]

end Unfolds

namespace IsTree

variable {f : Forest} {q : QueueId}

theorem unfolds (h : f.IsTree q) : f.Unfolds (f.shape q) :=
  unfolds_unfold (f.queues_eq_ids q ▸ length_le_of_known h.known h.distinct)

theorem carries (h : f.IsTree q) : f.Carries (f.shape q) where
  known := f.queues_eq_ids q ▸ h.known
  distinct := f.queues_eq_ids q ▸ h.distinct
  plain := f.queues_eq_ids q ▸ h.plain
  children t ht := .of_eq (h.unfolds t ht)

/-- Below a queue of a tree the forest unfolds to the part of the tree that belongs to the queue. -/
theorem shape_of_mem_parts (h : f.IsTree q) {t : Shape} (ht : t ∈ (f.shape q).parts) :
    f.shape t.id = t :=
  h.unfolds.shape_of_mem_parts (length_le_of_known h.carries.known h.carries.distinct) ht

/-- Below a queue of a tree stand the shapes of its children. -/
theorem shape_eq (h : f.IsTree q) : f.shape q = .node q ((f.node q).children.map f.shape) := by
  have whole := h.unfolds.eq_node (length_le_of_known h.carries.known h.carries.distinct)
  rwa [id_shape] at whole

end IsTree

/-- A shape that follows the child lists shows a tree. -/
theorem Carries.isTree {f : Forest} {s : Shape} (h : f.Carries s) (unfolds : f.Unfolds s) :
    f.IsTree s.id := by
  have queues : f.queues s.id = s.ids := by
    rw [queues_eq_ids, shape, unfold_of_unfolds unfolds (length_le_of_known h.known h.distinct)]
  exact ⟨queues ▸ h.known, queues ▸ h.distinct, queues ▸ h.plain⟩

/-- The same queues with the same children, siblings in any order. -/
structure Alike (f g : Forest) : Prop where
  allocation : g.allocation = f.allocation
  size : g.nodes.size = f.nodes.size
  name : ∀ q, (g.node q).name = (f.node q).name
  scripted : ∀ q, (g.node q).isScripted = (f.node q).isScripted
  children : ∀ q, (g.node q).children.Perm (f.node q).children

namespace Alike

variable {f g h : Forest}

theorem refl (f : Forest) : Alike f f := ⟨rfl, rfl, fun _ => rfl, fun _ => rfl, fun _ => .refl _⟩

theorem trans (fg : Alike f g) (gh : Alike g h) : Alike f h where
  allocation := gh.allocation.trans fg.allocation
  size := gh.size.trans fg.size
  name q := (gh.name q).trans (fg.name q)
  scripted q := (gh.scripted q).trans (fg.scripted q)
  children q := (gh.children q).trans (fg.children q)

theorem update (f : Forest) (q : QueueId) {k : Node → Node} (name : ∀ n, (k n).name = n.name)
    (scripted : ∀ n, (k n).isScripted = n.isScripted)
    (children : (k (f.node q)).children.Perm (f.node q).children) : Alike f (f.update q k) where
  allocation := rfl
  size := size_update f q k
  name p := by
    rw [node_update]
    split
    · exact name _
    · rfl
  scripted p := by
    rw [node_update]
    split
    · exact scripted _
    · rfl
  children p := by
    rw [node_update]
    split
    · next hp => exact hp.1 ▸ children
    · exact .refl _

theorem ids_unfold (fg : Alike f g) (n : Nat) (q : QueueId) :
    (g.unfold n q).ids.Perm (f.unfold n q).ids := by
  induction n generalizing q with
  | zero => exact .refl _
  | succ n ih =>
    rw [unfold, unfold, Shape.ids_node, Shape.ids_node, List.flatMap_map, List.flatMap_map]
    exact ((fg.children q).flatMap fun c _ => ih c).cons q

theorem queues (fg : Alike f g) (q : QueueId) : (g.queues q).Perm (f.queues q) := by
  rw [queues_eq_ids, queues_eq_ids, shape, shape, fg.size]
  exact fg.ids_unfold _ q

theorem mem_queues (fg : Alike f g) {p q : QueueId} : p ∈ g.queues q ↔ p ∈ f.queues q :=
  (fg.queues q).mem_iff

theorem isTree (fg : Alike f g) {q : QueueId} (tree : f.IsTree q) : g.IsTree q where
  known p hp := fg.size ▸ tree.known p (fg.mem_queues.1 hp)
  distinct := (fg.queues q).nodup_iff.2 tree.distinct
  plain p hp := fg.scripted p ▸ tree.plain p (fg.mem_queues.1 hp)

theorem carries (fg : Alike f g) {s : Shape} (h : f.Carries s) : g.Carries s where
  known p hp := fg.size ▸ h.known p hp
  distinct := h.distinct
  plain p hp := fg.scripted p ▸ h.plain p hp
  children t ht := (fg.children t.id).trans (h.children t ht)

theorem maxShare (fg : Alike f g) (q : QueueId) : g.maxShare q = f.maxShare q := by
  rw [Forest.maxShare, Forest.maxShare, fg.allocation, fg.name]

theorem minShare (fg : Alike f g) (q : QueueId) : g.minShare q = f.minShare q := by
  rw [Forest.minShare, Forest.minShare, fg.allocation, fg.name]

end Alike

namespace Carries

variable {f : Forest}

theorem of_mem_parts {s t : Shape} (h : f.Carries s) (ht : t ∈ s.parts) : f.Carries t where
  known p hp := h.known p (Shape.ids_subset_of_mem_parts ht hp)
  distinct := Shape.nodup_ids_of_mem_parts h.distinct ht
  plain p hp := h.plain p (Shape.ids_subset_of_mem_parts ht hp)
  children u hu := h.children u (Shape.parts_trans ht hu)

theorem of_mem_below {q : QueueId} {below : List Shape} (h : f.Carries (.node q below)) {s : Shape}
    (hs : s ∈ below) : f.Carries s :=
  h.of_mem_parts (Shape.mem_parts_node.2 (.inr ⟨s, hs, s.self_mem_parts⟩))

theorem children_root {q : QueueId} {below : List Shape} (h : f.Carries (.node q below)) :
    (f.node q).children.Perm (below.map Shape.id) := h.children _ (Shape.self_mem_parts _)

theorem body_root {q : QueueId} {below : List Shape} (h : f.Carries (.node q below)) :
    (∃ c, (f.node q).body = .composite c) ∨ ∃ l, (f.node q).body = .leaf l :=
  Node.body_of_not_scripted (h.plain q (Shape.id_mem_ids _))

theorem below_leaf {q : QueueId} {below : List Shape} (h : f.Carries (.node q below)) {l : Leaf}
    (hb : (f.node q).body = .leaf l) : below = [] := by
  have := h.children_root
  rw [Node.children_of_leaf hb] at this
  exact List.map_eq_nil_iff.1 this.nil_eq.symm

end Carries

namespace IsTree

variable {f : Forest} {q root : QueueId}

theorem of_mem_queues (tree : f.IsTree root) (hq : q ∈ f.queues root) : f.IsTree q := by
  rw [queues_eq_ids] at hq
  obtain ⟨t, ht, rfl⟩ := List.mem_map.1 hq
  exact (tree.carries.of_mem_parts ht).isTree fun u hu => tree.unfolds u (Shape.parts_trans ht hu)

theorem mem_queues_trans (tree : f.IsTree root) (hq : q ∈ f.queues root) {p : QueueId}
    (hp : p ∈ f.queues q) : p ∈ f.queues root := by
  rw [queues_eq_ids] at hq hp ⊢
  obtain ⟨t, ht, rfl⟩ := List.mem_map.1 hq
  rw [tree.shape_of_mem_parts ht] at hp
  exact Shape.ids_subset_of_mem_parts ht hp

end IsTree
end Forest
end FairShare
