import FairShare.Proofs.Roster

/-!
What is fixed when a queue is created: its name, the queue under which it was created, its kind, its
policy and its sink.  Operations on a tree leave this as it is for all queues there are, and of the
sinks they change nothing but the shares.
-/

namespace FairShare

/-- The sink without its shares. -/
def Sink.unshared (s : Sink) : Sink := { s with fairShare := .zero, steadyShare := .zero }

namespace Node

/-- The queue as it was created, but for what it held then. -/
def origin (n : Node) : Node where
  name := n.name
  parent := n.parent
  policy := n.policy
  sink := n.sink
  body := if n.isComposite then .composite {} else .leaf {}

section

variable (n : Node)

@[simp] theorem origin_name : n.origin.name = n.name := rfl

@[simp] theorem origin_parent : n.origin.parent = n.parent := rfl

@[simp] theorem origin_policy : n.origin.policy = n.policy := rfl

@[simp] theorem origin_sink : n.origin.sink = n.sink := rfl

@[simp] theorem origin_isComposite : n.origin.isComposite = n.isComposite := by
  rw [origin, isComposite]
  cases n.isComposite <;> rfl

@[simp] theorem origin_scope : n.origin.scope = n.scope := by
  rw [scope, scope, origin_isComposite, isRoot, isRoot, origin_parent]

theorem origin_uncounted : n.uncounted.origin = n.origin := by
  cases hb : n.body <;> simp [origin, uncounted, isComposite, hb]

theorem origin_mapComposite (k : Composite → Composite) :
    (n.mapComposite k).origin = n.origin := by
  cases hb : n.body <;> simp [origin, mapComposite, isComposite, hb]

theorem origin_mapLeaf (k : Leaf → Leaf) : (n.mapLeaf k).origin = n.origin := by
  cases hb : n.body <;> simp [origin, mapLeaf, isComposite, hb]

theorem origin_mapScripted (k : Scripted → Scripted) : (n.mapScripted k).origin = n.origin := by
  cases hb : n.body <;> simp [origin, mapScripted, isComposite, hb]

end

end Node

namespace Forest

/-- The forest with its queues as they were created and its sinks without shares.  Which allocation
is in force is left out as well. -/
def origin (f : Forest) : Forest where
  allocation := {}
  metrics := f.metrics.map Sink.unshared
  nodes := f.nodes.map Node.origin

section

variable {f g : Forest} {q : QueueId}

theorem size_of_origin (h : g.origin = f.origin) : g.nodes.size = f.nodes.size := by
  simpa [origin] using congrArg (fun k : Forest => k.nodes.size) h

theorem field_of_origin {α : Type} (field : Node → α) (unseen : ∀ n, field n.origin = field n)
    (h : g.origin = f.origin) (q : QueueId) : field (g.node q) = field (f.node q) := by
  have nodes : g.origin.nodes = f.origin.nodes := by rw [h]
  exact field_of_view field unseen rfl nodes q

theorem size_metrics_of_origin (h : g.origin = f.origin) : g.metrics.size = f.metrics.size := by
  simpa [origin] using congrArg (fun k : Forest => k.metrics.size) h

theorem sink_of_origin (h : g.origin = f.origin) (id : SinkId) :
    (g.metrics.sink id).unshared = (f.metrics.sink id).unshared := by
  have seen (k : Forest) : Metrics.sink k.origin.metrics id = (k.metrics.sink id).unshared := by
    by_cases known : id < k.metrics.size
    · simp [origin, Metrics.sink, Array.getD_eq_getD_getElem?, known]
    · simp [origin, Metrics.sink, Array.getD_eq_getD_getElem?, known]
      rfl
  rw [← seen, ← seen, h]

/-- What is seen of a sink without its shares is the same in forests that look the same. -/
theorem sink_field_of_origin {α : Type} (field : Sink → α)
    (unseen : ∀ s, field s.unshared = field s) (h : g.origin = f.origin) (id : SinkId) :
    field (g.metrics.sink id) = field (f.metrics.sink id) := by
  rw [← unseen, sink_of_origin h, unseen]

theorem origin_eq_iff : g.origin = f.origin ↔
    g.metrics.map Sink.unshared = f.metrics.map Sink.unshared ∧
      g.nodes.map Node.origin = f.nodes.map Node.origin := by
  rw [origin, origin, Forest.mk.injEq]
  exact and_iff_right rfl

theorem origin_of_view {view : Node → Node} (metrics : g.metrics = f.metrics)
    (h : (g.mapNodes view).nodes = (f.mapNodes view).nodes)
    (unseen : ∀ n, (view n).origin = n.origin) : g.origin = f.origin := by
  have through (k : Forest) :
      (k.mapNodes view).nodes.map Node.origin = k.nodes.map Node.origin := by
    rw [mapNodes, Array.map_map]
    exact congrArg (k.nodes.map ·) (funext unseen)
  have nodes : g.nodes.map Node.origin = f.nodes.map Node.origin := by
    rw [← through g, h, through f]
  exact origin_eq_iff.2 ⟨by rw [metrics], nodes⟩

theorem origin_update {k : Node → Node} (unseen : ∀ n, (k n).origin = n.origin) (f : Forest)
    (q : QueueId) : (f.update q k).origin = f.origin :=
  congrArg (fun g : Forest => { g with allocation := {}, metrics := f.metrics.map Sink.unshared })
    (mapNodes_update unseen f q)

theorem origin_updateComposite (f : Forest) (q : QueueId) (k : Composite → Composite) :
    (f.updateComposite q k).origin = f.origin :=
  origin_update (fun n => n.origin_mapComposite k) f q

theorem origin_detach {p : QueueId} {name : String} (h : f.detach? p name = some g) :
    g.origin = f.origin := by
  rw [detach?] at h
  split at h
  · cases h
    exact origin_updateComposite f p _
  · cases h

theorem origin_updateDemand (f : Forest) (q : QueueId) : (f.updateDemand q).origin = f.origin := by
  have counted : (f.updateDemand q).uncounted = f.uncounted := uncounted_countDemand _ f
  have metrics : (f.updateDemand q).uncounted.metrics = f.uncounted.metrics := by rw [counted]
  exact origin_of_view metrics (congrArg Forest.nodes counted) Node.origin_uncounted

theorem origin_publish (kind : ShareKind) (f : Forest) (q : QueueId) :
    (f.publish kind q).origin = f.origin := by
  rw [origin_eq_iff]
  refine ⟨?_, rfl⟩
  have same (m : Metrics) (id : SinkId) (share : Resource) :
      (m.setShare id share kind).map Sink.unshared = m.map Sink.unshared := by
    apply Array.ext
    · cases kind <;> simp [Metrics.setShare, Metrics.setFairShare, Metrics.setSteadyShare]
    · intro i _ _
      cases kind <;> by_cases hi : id = i <;>
        simp [Metrics.setShare, Metrics.setFairShare, Metrics.setSteadyShare,
          Array.getElem_modify, Sink.unshared, hi]
  exact same _ _ _

theorem origin_distribute (kind : ShareKind) (f : Forest) (root : QueueId) (capacity : Resource) :
    (f.distribute kind root capacity).origin = f.origin := by
  apply distribute_preserves (P := fun g => g.origin = f.origin)
  case set =>
    intro g q share same
    refine (origin_update ?_ g q).trans same
    intro n
    cases kind <;> rfl
  case publish =>
    intro g q same
    exact (origin_publish kind g q).trans same
  case start => rfl

theorem origin_tick (f : Forest) (root : QueueId) (capacity : Resource) (now : Nat) :
    (f.tick root capacity now).origin = f.origin := by
  have paced := unpaced_paceBelow now
    (((f.updateDemand root).distribute .fair root capacity).shape root)
    ((f.updateDemand root).distribute .fair root capacity)
  have metrics := congrArg Forest.metrics paced
  calc
    (f.tick root capacity now).origin =
        ((f.updateDemand root).distribute .fair root capacity).origin :=
      origin_of_view metrics (congrArg Forest.nodes paced) fun _ => rfl
    _ = (f.updateDemand root).origin := origin_distribute .fair _ root capacity
    _ = f.origin := origin_updateDemand f root

theorem origin_offer (machine : Machine) (s : Shape) (f : Forest) :
    (offer machine s f).1.origin = f.origin := by
  apply offer_preserves (P := fun g => g.origin = f.origin)
  case reordered =>
    intro g q l same
    exact (origin_update (fun n => n.origin_mapComposite _) g q).trans same
  case served =>
    intro g q request same _
    exact (origin_update (fun n => n.origin_mapLeaf _) g q).trans same
  case visited =>
    intro g q k same
    exact (origin_update (fun n => n.origin_mapScripted k) g q).trans same
  case holds => rfl

theorem origin_changeLeaf {change : Leaf → Option Leaf} (h : f.changeLeaf? q change = some g) :
    g.origin = f.origin := by
  obtain ⟨-, m, -, -, rfl⟩ := changeLeaf?_eq_some.1 h
  exact origin_update (fun n => n.origin_mapLeaf _) f q

theorem origin_countAbove {count : Forest → QueueId → Forest}
    (each : ∀ f q, (count f q).origin = f.origin) (f : Forest) (q : QueueId) :
    (f.countAbove count q).origin = f.origin := by
  rw [countAbove]
  induction f.ancestors q generalizing f with
  | nil => rfl
  | cons p rest ih => exact (ih (count f p)).trans (each f p)

theorem origin_submit {attempt : AttemptId} {user : String}
    (h : f.submit? q attempt user = some g) : g.origin = f.origin := by
  obtain ⟨changed, taken, rfl⟩ := Option.map_eq_some_iff.1 h
  calc
    (changed.countAbove countIn q).origin = changed.origin :=
      origin_countAbove (fun f p => origin_updateComposite f p _) changed q
    _ = f.origin := origin_changeLeaf taken

theorem origin_finish {attempt : AttemptId} {user : String}
    (h : f.finish? q attempt = some (g, user)) : g.origin = f.origin := by
  obtain ⟨-, m, -, -, rfl⟩ := finish?_eq_some.1 h
  exact (origin_countAbove (fun f p => origin_updateComposite f p _) _ q).trans
    (origin_update (fun n => n.origin_mapLeaf _) f q)

end

end Forest

namespace System

/-- Whatever is done with a tree, its queues stay what they were created as, unless a leaf is
created. -/
theorem origin_perform {s : System} {e : Event}
    (settled : ∀ name policy, e ≠ .createLeaf name policy) :
    (s.perform e).forest.origin = s.forest.origin := by
  have optional {g : Option Forest} (h : ∀ k, g = some k → k.origin = s.forest.origin) :
      (g.getD s.forest).origin = s.forest.origin := by
    cases g with
    | none => rfl
    | some k => exact h k rfl
  cases pass : e.isPass with
  | true =>
    apply pass_preserves (P := fun f => f.origin = s.forest.origin) pass
    case counted =>
      intro f q same
      exact (Forest.origin_updateDemand f q).trans same
    case shared =>
      intro f root capacity same
      exact (Forest.origin_distribute .steady f root capacity).trans same
    case ticked =>
      intro f root capacity now same
      exact (Forest.origin_tick f root capacity now).trans same
    case assigned =>
      intro f q machine _ same
      exact (Forest.origin_offer machine (f.shape q) f).trans same
    case holds => rfl
  | false =>
    cases e with
    | submit q attempt user => exact optional fun k => Forest.origin_submit
    | request q attempt request => exact optional fun k => Forest.origin_changeLeaf
    | finish q attempt =>
      refine optional fun k hk => ?_
      obtain ⟨⟨k, user⟩, h, rfl⟩ := Option.map_eq_some_iff.1 hk
      exact Forest.origin_finish h
    | release q container => exact optional fun k => Forest.origin_changeLeaf
    | createLeaf name policy => exact absurd rfl (settled name policy)
    | reload allocation =>
      rw [perform, QueueTree.reload]
      cases allocation.check <;> rfl
    | attach parent child => exact Forest.origin_updateComposite _ parent _
    | detach parent name => exact optional fun k => Forest.origin_detach
    | _ => cases pass

/-- An operation creates a leaf, or it leaves the look-ups and the queues as they were created. -/
theorem perform_cases (s : System) (e : Event) :
    (∃ name policy, e = .createLeaf name policy) ∨
      (s.perform e).tree = { s.tree with forest := (s.perform e).forest } ∧
        (s.perform e).forest.origin = s.forest.origin := by
  by_cases creates : ∃ name policy, e = .createLeaf name policy
  · exact .inl creates
  · have settled (name : String) (policy : Policy) : e ≠ .createLeaf name policy := by
      intro same
      exact creates ⟨name, policy, same⟩
    exact .inr ⟨tree_perform settled, origin_perform settled⟩

end System
end FairShare
