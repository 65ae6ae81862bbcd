import Mathlib.Data.List.Flatten
import FairShare.Policy.Catalogue
import FairShare.Proofs.Structure
import FairShare.Proofs.Sum

/-!
What a queue uses.  The usage of a queue of a tree is the sum over the containers that run below it,
cut once at `maxAmount`, so it is known once these are, in whatever order the queues are listed and
however they are nested.
-/

namespace FairShare

/-- What containers use together. -/
def usageOf (l : List Container) : Resource := .sum (l.map Container.resource)

@[simp] theorem usageOf_nil : usageOf [] = .zero := rfl

theorem usageOf_perm {l m : List Container} (h : l.Perm m) : usageOf l = usageOf m :=
  Resource.sum_perm (h.map _)

theorem get_usageOf (l : List Container) (dim : String) :
    (usageOf l).get dim = min maxAmount (l.map fun c => c.resource.get dim).sum := by
  rw [usageOf, Resource.get_sum, Resource.exact_eq_sum, List.map_map, Nat.min_comm]
  rfl

/-- Fewer containers do not use more. -/
theorem get_usageOf_sublist {l m : List Container} (h : l.Sublist m) (dim : String) :
    (usageOf l).get dim ≤ (usageOf m).get dim := by
  have fewer := Resource.exact_sublist (h.map Container.resource) dim
  rw [usageOf, usageOf, Resource.get_sum, Resource.get_sum]
  omega

theorem usageOf_flatMap {α : Type} (l : List α) (h : α → List Container) :
    usageOf (l.flatMap h) = .sum (l.map fun x => usageOf (h x)) := by
  have terms : (l.map h).map (List.map Container.resource) = l.map fun x =>
      (h x).map Container.resource := by rw [List.map_map]; rfl
  have sums : (l.map fun x => usageOf (h x)) =
      (l.map fun x => (h x).map Container.resource).map Resource.sum := by rw [List.map_map]; rfl
  rw [usageOf, List.flatMap_def, List.map_flatten, terms, sums, Resource.sum_map_sum]

theorem Leaf.usage_eq_usageOf (l : Leaf) : l.usage = usageOf (l.apps.flatMap App.running) := by
  rw [usageOf_flatMap]
  rfl

namespace Forest

/-- The containers that run in queues of a list, queue by queue. -/
def containersIn (f : Forest) (l : List QueueId) : List Container :=
  l.flatMap fun q => (f.node q).running

/-- The containers that run below a queue or in it. -/
def containers (f : Forest) (q : QueueId) : List Container := f.containersIn (f.queues q)

theorem containersIn_perm (f : Forest) {l m : List QueueId} (h : l.Perm m) :
    (f.containersIn l).Perm (f.containersIn m) := h.flatMap_right _

theorem containersIn_congr {f g : Forest} {l : List QueueId}
    (h : ∀ q ∈ l, (g.node q).running = (f.node q).running) :
    g.containersIn l = f.containersIn l := List.flatMap_congr h

namespace Alike

variable {f g : Forest}

theorem containers (fg : Alike f g) (q : QueueId) :
    (g.containers q).Perm (g.containersIn (f.queues q)) := g.containersIn_perm (fg.queues q)

theorem containers_perm (fg : Alike f g) (same : ∀ p, (g.node p).running = (f.node p).running)
    (q : QueueId) : (g.containers q).Perm (f.containers q) :=
  (fg.containers q).trans (.of_eq (containersIn_congr fun p _ => same p))

end Alike

theorem usageBelow_eq_usageOf {f : Forest} {s : Shape} (h : f.Carries s) :
    f.usageBelow s = usageOf (f.containersIn s.ids) := by
  induction s with
  | node q below ih =>
    rcases h.body_root with ⟨c, hb⟩ | ⟨l, hb⟩
    · -- A composite queue runs nothing itself, so its usage is the sum over its subtrees.
      have none : (f.node q).running = [] := by rw [Node.running, Node.apps_of_composite hb]; rfl
      have each : below.map f.usageBelow = below.map fun s => usageOf (f.containersIn s.ids) :=
        List.map_congr_left fun s hs => ih s hs (h.of_mem_below hs)
      rw [usageBelow, hb, usagesBelow_eq_map, each, containersIn, Shape.ids_node,
        List.flatMap_cons, none, List.nil_append, List.flatMap_assoc, usageOf_flatMap]
      rfl
    · rw [usageBelow, hb, containersIn, Shape.ids_node, h.below_leaf hb, List.flatMap_nil,
        List.flatMap_cons, List.flatMap_nil, List.append_nil, Node.running, Node.apps_of_leaf hb]
      exact l.usage_eq_usageOf

theorem usage_of_leaf {f : Forest} {q : QueueId} {l : Leaf} (hb : (f.node q).body = .leaf l) :
    f.usage q = l.usage := by
  have own := f.id_shape q
  rw [usage]
  cases hs : f.shape q with
  | node p below =>
    rw [hs, Shape.id_node] at own
    rw [usageBelow, own, hb]

/-- The usage of a queue of a tree is what the containers below it use. -/
theorem usage_eq_usageOf {f : Forest} {q : QueueId} (tree : f.IsTree q) :
    f.usage q = usageOf (f.containers q) := by
  rw [usage, usageBelow_eq_usageOf tree.carries, containers, queues_eq_ids]

/-- What runs below a queue of a tree is part of what runs below the queues above it. -/
theorem IsTree.containers_sublist {f : Forest} {p q : QueueId} (tree : f.IsTree q)
    (hp : p ∈ f.queues q) : (f.containers p).Sublist (f.containers q) := by
  rw [queues_eq_ids] at hp
  obtain ⟨t, ht, rfl⟩ := List.mem_map.1 hp
  rw [containers, containers, queues_eq_ids, queues_eq_ids, tree.shape_of_mem_parts ht]
  exact (Shape.ids_sublist_of_mem_parts ht).flatMap _

/-- The usage of a queue is the exact sum over the containers that run below it, cut once, whatever
queues they are in; no queue below it uses more. -/
theorem usage_is_flat_sum {f : Forest} {root q : QueueId} (tree : f.IsTree root)
    (hq : q ∈ f.queues root) :
    (∀ dim, (f.usage q).get dim =
        min maxAmount ((f.containers q).map fun c => c.resource.get dim).sum) ∧
      (∀ p ∈ f.queues q, ∀ dim, (f.usage p).get dim ≤ (f.usage q).get dim) ∧
      ∀ (g : Forest) (p : QueueId), g.IsTree p →
        ((g.containers p).map Container.resource).Perm ((f.containers q).map Container.resource) →
        g.usage p = f.usage q := by
  have below : f.IsTree q := tree.of_mem_queues hq
  have flat : f.usage q = usageOf (f.containers q) := usage_eq_usageOf below
  refine ⟨fun dim => ?_, fun p hp dim => ?_, fun g p other same => ?_⟩
  · rw [flat, get_usageOf]
  · rw [usage_eq_usageOf (below.of_mem_queues hp), flat]
    exact get_usageOf_sublist (below.containers_sublist hp) dim
  · rw [usage_eq_usageOf other, flat]
    exact Resource.sum_perm same

/-- A root over a leaf and over a queue whose two leaves together reach the largest amount. -/
def brimful : Forest where
  allocation := {}
  nodes :=
    #[{ name := "root", parent := none, policy := .fair, sink := 0
        body := .composite { children := [1, 2] } },
      { name := "root.a", parent := some 0, policy := .fair, sink := 1
        body := .leaf
          { apps := [{ attempt := ⟨⟨1⟩, 1⟩, user := "ann"
                       running := [⟨⟨⟨⟨1⟩, 1⟩, 1⟩, .ofMemoryCores 7 2⟩], nextSequence := 2 }] } },
      { name := "root.b", parent := some 0, policy := .fair, sink := 2
        body := .composite { children := [3, 4] } },
      { name := "root.b.c", parent := some 2, policy := .fair, sink := 3
        body := .leaf
          { apps := [{ attempt := ⟨⟨2⟩, 1⟩, user := "bob"
                       running := [⟨⟨⟨⟨2⟩, 1⟩, 1⟩, .ofMemoryCores maxAmount 1⟩]
                       nextSequence := 2 }] } },
      { name := "root.b.d", parent := some 2, policy := .fair, sink := 4
        body := .leaf
          { apps := [{ attempt := ⟨⟨3⟩, 1⟩, user := "eve"
                       running := [⟨⟨⟨⟨3⟩, 1⟩, 1⟩, .ofMemoryCores 5 4⟩], nextSequence := 2 }] } }]

/-- The same leaves, all of them below the root itself. -/
def brimfulFlat : Forest := brimful.updateComposite 0 fun c => { c with children := [4, 3, 1] }

/-- Memory is cut in the inner sum and again in the outer one, as if it were cut once; cores are
not cut. -/
theorem usage_is_flat_sum_brimful :
    brimful.IsTree 0 ∧ 0 ∈ brimful.queues 0 ∧ 2 ∈ brimful.queues 0 ∧
      brimful.usage 0 = .ofMemoryCores maxAmount 7 ∧
      ((brimful.containers 0).map fun c => c.resource.get Resource.memoryDim).sum =
        maxAmount + 12 ∧
      (brimful.usage 0).get Resource.memoryDim = min maxAmount (maxAmount + 12) ∧
      (brimful.usage 2).get Resource.coresDim ≤ (brimful.usage 0).get Resource.coresDim ∧
      brimfulFlat.usage 0 = brimful.usage 0 := by
  have tree : brimful.IsTree 0 := by decide
  have root : 0 ∈ brimful.queues 0 := by decide
  have inner : 2 ∈ brimful.queues 0 := by decide
  have total : ((brimful.containers 0).map fun c => c.resource.get Resource.memoryDim).sum =
      maxAmount + 12 := by decide +kernel
  have same : ((brimfulFlat.containers 0).map Container.resource).Perm
      ((brimful.containers 0).map Container.resource) := by decide +kernel
  obtain ⟨flat, grows, nested⟩ := usage_is_flat_sum tree root
  exact ⟨tree, root, inner, by decide +kernel, total, total ▸ flat _, grows 2 inner _,
    nested brimfulFlat 0 (by decide) same⟩

end Forest
end FairShare
