import FairShare.Proofs.Passes

/-!
What a count of demand looks at and what it changes.  It looks at the queues below the one that is
counted and at nothing else, changes no other queue, and refreshes some of them: within a list of
children those that come before the cap is reached.
-/

namespace FairShare
namespace Forest

mutual

/-- The queues whose demand a count refreshes, in the order in which it comes to them. -/
def refreshed : Shape → Forest → List QueueId
  | .node q below, f =>
    match (f.node q).body with
    | .composite _ => q :: refreshedAmong (f.maxShare q) below f .zero false
    | _ => [q]

/-- The queues that are refreshed among the children of a queue, from a total on. -/
def refreshedAmong (cap : Option Resource) :
    List Shape → Forest → Resource → Bool → List QueueId
  | [], _, _, _ => []
  | s :: rest, f, total, pinned =>
    if pinned then []
    else
      let g := countDemand s f
      let sum := cut cap (total + (g.node s.id).demand)
      refreshed s f ++ refreshedAmong cap rest g sum (isPinned cap sum)

end

/-- The queues whose demand is refreshed when that of a queue is updated. -/
def refreshes (f : Forest) (q : QueueId) : List QueueId := refreshed (f.shape q) f

/-- The queues below a queue, with the queue as root, form a tree of queues of any kind. -/
structure IsRooted (f : Forest) (q : QueueId) : Prop where
  known : ∀ p ∈ f.queues q, p < f.nodes.size
  distinct : (f.queues q).Nodup

instance (f : Forest) (q : QueueId) : Decidable (f.IsRooted q) :=
  decidable_of_iff ((∀ p ∈ f.queues q, p < f.nodes.size) ∧ (f.queues q).Nodup)
    ⟨fun h => ⟨h.1, h.2⟩, fun h => ⟨h.known, h.distinct⟩⟩

/-- A shape of distinct queues of the forest that follows the child lists to their ends. -/
structure Follows (f : Forest) (s : Shape) : Prop where
  known : ∀ p ∈ s.ids, p < f.nodes.size
  distinct : s.ids.Nodup
  unfolds : f.Unfolds s

theorem IsTree.rooted {f : Forest} {q : QueueId} (tree : f.IsTree q) : f.IsRooted q :=
  ⟨tree.known, tree.distinct⟩

theorem IsRooted.follows {f : Forest} {q : QueueId} (h : f.IsRooted q) : f.Follows (f.shape q) where
  known := f.queues_eq_ids q ▸ h.known
  distinct := f.queues_eq_ids q ▸ h.distinct
  unfolds := unfolds_unfold (f.queues_eq_ids q ▸ length_le_of_known h.known h.distinct)

theorem IsRooted.shape_eq {f : Forest} {q : QueueId} (h : f.IsRooted q) :
    f.shape q = .node q ((f.node q).children.map f.shape) := by
  have whole := h.follows.unfolds.eq_node (length_le_of_known h.follows.known h.follows.distinct)
  rwa [id_shape] at whole

namespace Follows

variable {f : Forest} {q : QueueId} {below : List Shape}

theorem congr {g : Forest} {s : Shape} (h : f.Follows s) (size : g.nodes.size = f.nodes.size)
    (children : ∀ p, (g.node p).children = (f.node p).children) : g.Follows s where
  known p hp := by
    rw [size]
    exact h.known p hp
  distinct := h.distinct
  unfolds t ht := (children t.id).trans (h.unfolds t ht)

theorem of_mem_parts {s t : Shape} (h : f.Follows s) (ht : t ∈ s.parts) : f.Follows t where
  known p hp := h.known p (Shape.ids_subset_of_mem_parts ht hp)
  distinct := Shape.nodup_ids_of_mem_parts h.distinct ht
  unfolds u hu := h.unfolds u (Shape.parts_trans ht hu)

theorem shape_of_mem_parts {s t : Shape} (h : f.Follows s) (ht : t ∈ s.parts) : f.shape t.id = t :=
  h.unfolds.shape_of_mem_parts (length_le_of_known h.known h.distinct) ht

theorem of_mem_below (h : f.Follows (.node q below)) {s : Shape} (hs : s ∈ below) :
    f.Follows s :=
  h.of_mem_parts (Shape.mem_parts_node.2 (.inr ⟨s, hs, s.self_mem_parts⟩))

theorem children (h : f.Follows (.node q below)) : (f.node q).children = below.map Shape.id :=
  h.unfolds _ (Shape.self_mem_parts _)

theorem below_eq_nil (h : f.Follows (.node q below)) (hb : ∀ c, (f.node q).body ≠ .composite c) :
    below = [] := by
  have := h.children
  rw [Node.children_of_not_composite hb] at this
  exact List.map_eq_nil_iff.1 this.symm

theorem distinct_below (h : f.Follows (.node q below)) : (below.flatMap Shape.ids).Nodup :=
  (List.nodup_cons.1 (Shape.ids_node q below ▸ h.distinct)).2

/-- A queue is not among the queues below it. -/
theorem not_mem_below (h : f.Follows (.node q below)) {s : Shape} (hs : s ∈ below) : q ∉ s.ids :=
  Shape.not_mem_ids_of_mem_below h.distinct hs

theorem children_mem (h : f.Follows s) {p c : QueueId} (hp : p ∈ s.ids)
    (hc : c ∈ (f.node p).children) : c ∈ s.ids := by
  obtain ⟨t, ht, rfl⟩ := List.mem_map.1 hp
  rw [h.unfolds t ht] at hc
  obtain ⟨u, hu, rfl⟩ := List.mem_map.1 hc
  cases t with
  | node q below =>
    have part : u ∈ (Shape.node q below).parts :=
      Shape.mem_parts_node.2 (.inr ⟨u, hu, u.self_mem_parts⟩)
    exact Shape.id_mem_ids_of_mem_parts (Shape.parts_trans ht part)

end Follows

/-- Forests that agree on queues, as far as counting demand looks at them. -/
structure AgreeOn (l : List QueueId) (f g : Forest) : Prop where
  allocation : g.allocation = f.allocation
  size : g.nodes.size = f.nodes.size
  name : ∀ p ∈ l, (g.node p).name = (f.node p).name
  body : ∀ p ∈ l, (g.node p).body = (f.node p).body

/-- What the queue of a shape demands. -/
def demandAt (f : Forest) (s : Shape) : Resource := (f.node s.id).demand

namespace AgreeOn

variable {l : List QueueId} {f g h : Forest} {p q : QueueId}

theorem refl (l : List QueueId) (f : Forest) : AgreeOn l f f :=
  ⟨rfl, rfl, fun _ _ => rfl, fun _ _ => rfl⟩

theorem trans (fg : AgreeOn l f g) (gh : AgreeOn l g h) : AgreeOn l f h where
  allocation := gh.allocation.trans fg.allocation
  size := gh.size.trans fg.size
  name p hp := (gh.name p hp).trans (fg.name p hp)
  body p hp := (gh.body p hp).trans (fg.body p hp)

theorem symm (fg : AgreeOn l f g) : AgreeOn l g f where
  allocation := fg.allocation.symm
  size := fg.size.symm
  name p hp := (fg.name p hp).symm
  body p hp := (fg.body p hp).symm

theorem of_keeps (fg : Keeps f g) (same : ∀ p ∈ l, (g.node p).body = (f.node p).body) :
    AgreeOn l f g := ⟨fg.allocation, fg.size, fun p _ => fg.name p, same⟩

theorem maxShare (fg : AgreeOn l f g) (hp : p ∈ l) : g.maxShare p = f.maxShare p := by
  rw [Forest.maxShare, Forest.maxShare, fg.allocation, fg.name p hp]

theorem demand (fg : AgreeOn l f g) (hp : p ∈ l) : (g.node p).demand = (f.node p).demand := by
  rw [Node.demand, Node.demand, fg.body p hp]

theorem update (fg : AgreeOn l f g) (q : QueueId) {k : Node → Node}
    (name : ∀ n, (k n).name = n.name) (body : ∀ n m, n.body = m.body → (k n).body = (k m).body) :
    AgreeOn l (f.update q k) (g.update q k) where
  allocation := fg.allocation
  size := by rw [size_update, size_update, fg.size]
  name p hp := by
    rw [node_update, node_update, fg.size]
    split
    · rw [name, name, fg.name p hp]
    · exact fg.name p hp
  body p hp := by
    rw [node_update, node_update, fg.size]
    split
    · exact body _ _ (fg.body p hp)
    · exact fg.body p hp

theorem updateComposite (fg : AgreeOn l f g) (q : QueueId) (k : Composite → Composite) :
    AgreeOn l (f.updateComposite q k) (g.updateComposite q k) :=
  fg.update q (Node.mapComposite_name k) fun n m same => by
    cases hb : n.body <;> simp [Node.mapComposite, hb, ← same]

theorem countChildren {below : List Shape}
    (each : ∀ s ∈ below, ∀ f g, AgreeOn l f g →
      AgreeOn l (countDemand s f) (countDemand s g) ∧ refreshed s g = refreshed s f)
    (ids : ∀ s ∈ below, s.id ∈ l) (fg : AgreeOn l f g) (cap : Option Resource) (total : Resource)
    (pinned : Bool) :
    AgreeOn l (Forest.countChildren cap below f total pinned).1
        (Forest.countChildren cap below g total pinned).1 ∧
      (Forest.countChildren cap below g total pinned).2 =
        (Forest.countChildren cap below f total pinned).2 ∧
      refreshedAmong cap below g total pinned = refreshedAmong cap below f total pinned := by
  induction below generalizing f g total pinned with
  | nil => exact ⟨fg, rfl, rfl⟩
  | cons s rest ih =>
    have rest := fun f g (fg : AgreeOn l f g) total pinned =>
      ih (fun s hs => each s (by simp [hs])) (fun s hs => ids s (by simp [hs])) fg total pinned
    cases pinned with
    | true =>
      have same := fg.demand (ids s (by simp))
      simp only [Forest.countChildren, refreshedAmong, if_true, same]
      exact ⟨(rest f g fg _ _).1, (rest f g fg _ _).2.1, trivial⟩
    | false =>
      obtain ⟨first, names⟩ := each s (by simp) f g fg
      have same := first.demand (ids s (by simp))
      simp only [Forest.countChildren, refreshedAmong, Bool.false_eq_true, if_false, same, names,
        Bool.false_or]
      obtain ⟨later, totals, more⟩ := rest _ _ first
        (cut cap (total + ((countDemand s f).node s.id).demand)) _
      exact ⟨later, totals, by rw [more]⟩

/-- Counting below a queue looks at the queues below it only. -/
theorem countDemand {s : Shape} (sub : s.ids ⊆ l) (fg : AgreeOn l f g) :
    AgreeOn l (Forest.countDemand s f) (Forest.countDemand s g) ∧
      refreshed s g = refreshed s f := by
  induction s generalizing f g with
  | node q below ih =>
    have hq : q ∈ l := sub (Shape.id_mem_ids _)
    have subs (s : Shape) (hs : s ∈ below) : s.ids ⊆ l := fun p hp =>
      sub (Shape.mem_ids_node.2 (.inr ⟨s, hs, hp⟩))
    rw [Forest.countDemand, Forest.countDemand, refreshed, refreshed, fg.body q hq, fg.maxShare hq]
    cases hb : (f.node q).body with
    | composite c =>
      obtain ⟨children, totals, names⟩ := fg.countChildren
        (fun s hs f g fg => ih s hs (subs s hs) fg) (fun s hs => subs s hs s.id_mem_ids)
        (f.maxShare q) .zero false
      simp only [totals, names]
      exact ⟨children.updateComposite q _, trivial⟩
    | leaf _ =>
      refine ⟨fg.update q (Node.mapLeaf_name _) fun n m same => ?_, rfl⟩
      cases hb : n.body <;> simp [Node.mapLeaf, hb, ← same]
    | scripted _ =>
      refine ⟨fg.update q (fun n => ?_) fun n m same => ?_, rfl⟩
      · cases hb : n.body <;> simp [Node.mapScripted, hb]
      · cases hb : n.body <;> simp [Node.mapScripted, hb, ← same]

end AgreeOn

section

variable {f g : Forest} {p q : QueueId} {s : Shape} {below : List Shape}

theorem node_countChildren_of_not_mem
    (each : ∀ s ∈ below, ∀ f, p ∉ s.ids → (countDemand s f).node p = f.node p)
    (hp : ∀ s ∈ below, p ∉ s.ids) (cap : Option Resource) (f : Forest) (total : Resource)
    (pinned : Bool) : (countChildren cap below f total pinned).1.node p = f.node p := by
  induction below generalizing f total pinned with
  | nil => rfl
  | cons s rest ih =>
    have first : (if pinned then f else countDemand s f).node p = f.node p := by
      cases pinned with
      | true => rfl
      | false => exact each s (by simp) f (hp s (by simp))
    have later := ih (fun s hs => each s (by simp [hs])) (fun s hs => hp s (by simp [hs]))
    exact (later _ _ _).trans first

/-- A count leaves the queues of other shapes as they are. -/
theorem node_countDemand_of_not_mem (hp : p ∉ s.ids) (f : Forest) :
    (countDemand s f).node p = f.node p := by
  induction s generalizing f with
  | node q below ih =>
    have hq : p ≠ q := fun h => hp (Shape.mem_ids_node.2 (.inl h))
    have hbelow (s : Shape) (hs : s ∈ below) : p ∉ s.ids := fun h =>
      hp (Shape.mem_ids_node.2 (.inr ⟨s, hs, h⟩))
    rw [countDemand]
    split
    · exact (node_update_of_ne _ _ hq).trans
        (node_countChildren_of_not_mem (fun s hs f h => ih s hs h f) hbelow _ f _ _)
    · exact node_update_of_ne f _ hq
    · exact node_update_of_ne f _ hq

theorem refreshed_subset : refreshed s f ⊆ s.ids := by
  have among : ∀ (below : List Shape) (cap : Option Resource) (f : Forest) (total : Resource)
      (pinned : Bool), (∀ s ∈ below, ∀ f, refreshed s f ⊆ s.ids) →
      refreshedAmong cap below f total pinned ⊆ below.flatMap Shape.ids := by
    intro below
    induction below with
    | nil => exact fun _ _ _ _ _ => List.nil_subset _
    | cons s rest ih =>
      intro cap f total pinned each
      rw [refreshedAmong, List.flatMap_cons]
      split
      · exact List.nil_subset _
      · exact List.append_subset.2 ⟨fun p hp => List.mem_append_left _ (each s (by simp) f hp),
          fun p hp => List.mem_append_right _ (ih cap _ _ _ (fun s hs => each s (by simp [hs])) hp)⟩
  induction s generalizing f with
  | node q below ih =>
    rw [refreshed, Shape.ids_node]
    split
    · exact List.cons_subset_cons q (among below _ f _ _ fun s hs f => ih s hs)
    · exact List.cons_subset_cons q (List.nil_subset _)

end

end Forest
end FairShare
