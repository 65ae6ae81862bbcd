import FairShare.Proofs.Usage

/-!
Forests that differ only in the order of siblings.  Whatever is computed along a fixed shape, such
as usages and what a policy sees, is the same in both.
-/

namespace FairShare
namespace Node

/-- The queue with its children in another order, if it lists any. -/
def withChildren (l : List QueueId) (n : Node) : Node :=
  n.mapComposite fun c => { c with children := l }

variable (l : List QueueId) (n : Node)

theorem withChildren_of_composite {c : Composite} (h : n.body = .composite c) :
    n.withChildren l = { n with body := .composite { c with children := l } } := by
  rw [withChildren, mapComposite, h]

theorem withChildren_of_not_composite (h : ∀ c, n.body ≠ .composite c) : n.withChildren l = n := by
  rw [withChildren, mapComposite]
  split
  · next c hc => exact absurd hc (h c)
  · rfl

theorem withChildren_eq {α : Type} (field : Node → α)
    (h : ∀ c, n.body = .composite c →
      field { n with body := .composite { c with children := l } } = field n) :
    field (n.withChildren l) = field n := by
  cases hb : n.body with
  | composite c => rw [withChildren_of_composite l n hb, h c hb]
  | leaf a => rw [withChildren_of_not_composite l n (by simp [hb])]
  | scripted a => rw [withChildren_of_not_composite l n (by simp [hb])]

@[simp] theorem withChildren_name : (n.withChildren l).name = n.name :=
  withChildren_eq l n Node.name fun _ _ => rfl

@[simp] theorem withChildren_parent : (n.withChildren l).parent = n.parent :=
  withChildren_eq l n Node.parent fun _ _ => rfl

@[simp] theorem withChildren_policy : (n.withChildren l).policy = n.policy :=
  withChildren_eq l n Node.policy fun _ _ => rfl

@[simp] theorem withChildren_fairShare : (n.withChildren l).fairShare = n.fairShare :=
  withChildren_eq l n Node.fairShare fun _ _ => rfl

@[simp] theorem withChildren_steadyShare : (n.withChildren l).steadyShare = n.steadyShare :=
  withChildren_eq l n Node.steadyShare fun _ _ => rfl

@[simp] theorem withChildren_pacing : (n.withChildren l).pacing = n.pacing :=
  withChildren_eq l n Node.pacing fun _ _ => rfl

@[simp] theorem withChildren_released : (n.withChildren l).released = n.released :=
  withChildren_eq l n Node.released fun _ _ => rfl

@[simp] theorem withChildren_scope : (n.withChildren l).scope = n.scope :=
  withChildren_eq l n Node.scope fun _ hc => by simp [scope, isComposite, isRoot, hc]

@[simp] theorem withChildren_demand : (n.withChildren l).demand = n.demand :=
  withChildren_eq l n Node.demand fun _ hc => by simp [demand, hc]

@[simp] theorem withChildren_runnable : (n.withChildren l).runnable = n.runnable :=
  withChildren_eq l n Node.runnable fun _ hc => by simp [runnable, hc]

@[simp] theorem withChildren_attempts : (n.withChildren l).attempts = n.attempts :=
  withChildren_eq l n Node.attempts fun _ hc => by simp [attempts, hc]

@[simp] theorem withChildren_isScripted : (n.withChildren l).isScripted = n.isScripted :=
  mapComposite_isScripted _ n

@[simp] theorem withChildren_apps : (n.withChildren l).apps = n.apps := mapComposite_apps _ n

theorem withChildren_withChildren (m : List QueueId) :
    (n.withChildren l).withChildren m = n.withChildren m := by
  cases hb : n.body with
  | composite c => simp [withChildren, mapComposite, hb]
  | leaf a => simp [withChildren, mapComposite, hb]
  | scripted a => simp [withChildren, mapComposite, hb]

theorem withChildren_children : n.withChildren n.children = n := by
  cases hb : n.body with
  | composite c => rw [withChildren_of_composite _ n hb, children, hb, ← hb]
  | leaf a => rw [withChildren_of_not_composite _ n (by simp [hb])]
  | scripted a => rw [withChildren_of_not_composite _ n (by simp [hb])]

theorem children_withChildren {l : List QueueId} {n : Node} (h : l.Perm n.children) :
    (n.withChildren l).children = l := by
  by_cases hc : ∃ c, n.body = .composite c
  · obtain ⟨c, hc⟩ := hc
    rw [withChildren_of_composite l n hc, children]
  · have hb (c : Composite) : n.body ≠ .composite c := fun e => hc ⟨c, e⟩
    rw [children_of_not_composite hb] at h
    rw [withChildren_of_not_composite l n hb, children_of_not_composite hb, h.eq_nil]

end Node

namespace Forest

/-- The second forest is the first one but for the order of siblings. -/
structure Reordered (f g : Forest) : Prop where
  allocation : g.allocation = f.allocation
  metrics : g.metrics = f.metrics
  size : g.nodes.size = f.nodes.size
  node : ∀ q, ∃ l, l.Perm (f.node q).children ∧ g.node q = (f.node q).withChildren l

namespace Reordered

variable {f g h : Forest}

theorem refl (f : Forest) : Reordered f f :=
  ⟨rfl, rfl, rfl, fun q => ⟨_, .refl _, ((f.node q).withChildren_children).symm⟩⟩

theorem trans (fg : Reordered f g) (gh : Reordered g h) : Reordered f h where
  allocation := gh.allocation.trans fg.allocation
  metrics := gh.metrics.trans fg.metrics
  size := gh.size.trans fg.size
  node q := by
    obtain ⟨l, hl, eg⟩ := fg.node q
    obtain ⟨m, hm, eh⟩ := gh.node q
    rw [eg, Node.children_withChildren hl] at hm
    exact ⟨m, hm.trans hl, by rw [eh, eg, Node.withChildren_withChildren]⟩

/-- A queue brings its children into another order. -/
theorem update {q : QueueId} {l : List QueueId} (hl : l.Perm (f.node q).children) :
    Reordered f (f.update q (Node.withChildren l)) where
  allocation := rfl
  metrics := rfl
  size := size_update f q _
  node p := by
    rw [node_update]
    split
    · next hp => exact ⟨l, hp.1 ▸ hl, rfl⟩
    · exact ⟨_, .refl _, ((f.node p).withChildren_children).symm⟩

theorem node_eq (fg : Reordered f g) {α : Type} {field : Node → α}
    (h : ∀ l n, field (Node.withChildren l n) = field n) (q : QueueId) :
    field (g.node q) = field (f.node q) := by
  obtain ⟨l, -, e⟩ := fg.node q
  rw [e, h]

theorem apps (fg : Reordered f g) (q : QueueId) : (g.node q).apps = (f.node q).apps :=
  fg.node_eq Node.withChildren_apps q

theorem alike (fg : Reordered f g) : Alike f g where
  allocation := fg.allocation
  size := fg.size
  name := fg.node_eq Node.withChildren_name
  scripted := fg.node_eq Node.withChildren_isScripted
  children q := by
    obtain ⟨l, hl, e⟩ := fg.node q
    rw [e, Node.children_withChildren hl]
    exact hl

theorem containers (fg : Reordered f g) (q : QueueId) : (g.containers q).Perm (f.containers q) :=
  fg.alike.containers_perm (fun p => by rw [Node.running, Node.running, fg.apps]) q

theorem body_of_composite (fg : Reordered f g) {q : QueueId} {c : Composite}
    (h : (f.node q).body = .composite c) :
    ∃ l, (g.node q).body = .composite { c with children := l } := by
  obtain ⟨l, -, e⟩ := fg.node q
  exact ⟨l, by rw [e, Node.withChildren_of_composite _ _ h]⟩

theorem node_of_not_composite (fg : Reordered f g) {q : QueueId}
    (h : ∀ c, (f.node q).body ≠ .composite c) : g.node q = f.node q := by
  obtain ⟨l, -, e⟩ := fg.node q
  rw [e, Node.withChildren_of_not_composite _ _ h]

theorem maxShare (fg : Reordered f g) (q : QueueId) : g.maxShare q = f.maxShare q :=
  fg.alike.maxShare q

theorem minShare (fg : Reordered f g) (q : QueueId) : g.minShare q = f.minShare q :=
  fg.alike.minShare q

theorem weight (fg : Reordered f g) (q : QueueId) : g.weight q = f.weight q := by
  rw [Forest.weight, Forest.weight, fg.allocation, fg.alike.name]

theorem parent? (fg : Reordered f g) (q : QueueId) : g.parent? q = f.parent? q := by
  simp only [Forest.parent?, fg.node_eq Node.withChildren_parent,
    fg.node_eq Node.withChildren_released]

theorem usageBelow (fg : Reordered f g) (s : Shape) : g.usageBelow s = f.usageBelow s := by
  induction s with
  | node q below ih =>
    have each : below.map g.usageBelow = below.map f.usageBelow := List.map_congr_left ih
    cases hb : (f.node q).body with
    | composite c =>
      obtain ⟨l, hg⟩ := fg.body_of_composite hb
      rw [Forest.usageBelow, Forest.usageBelow, hb, hg, usagesBelow_eq_map, usagesBelow_eq_map, each]
    | leaf l =>
      rw [Forest.usageBelow, Forest.usageBelow, fg.node_of_not_composite (by simp [hb]), hb]
    | scripted a =>
      rw [Forest.usageBelow, Forest.usageBelow, fg.node_of_not_composite (by simp [hb]), hb]

/-- A policy sees the same of a queue. -/
theorem standing (fg : Reordered f g) (s : Shape) : g.standing s = f.standing s := by
  induction s with
  | node q below ih =>
    have each : below.map g.standing = below.map f.standing := List.map_congr_left ih
    simp only [Forest.standing, standings_eq_map, each, fg.usageBelow, fg.maxShare, fg.minShare,
      fg.weight, fg.parent?, fg.node_eq Node.withChildren_name, fg.node_eq Node.withChildren_scope,
      fg.node_eq Node.withChildren_demand, fg.node_eq Node.withChildren_fairShare,
      fg.node_eq Node.withChildren_steadyShare, fg.node_eq Node.withChildren_runnable,
      fg.node_eq Node.withChildren_pacing, fg.node_eq Node.withChildren_attempts]

end Reordered
end Forest
end FairShare
