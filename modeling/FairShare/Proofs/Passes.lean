import FairShare.Proofs.Reordered
import FairShare.Scheduler

/-!
The passes of an update.  Each pass writes one part of what a queue stores: counting writes the
demand, handing down writes the shares, and recording writes the times.  With that part out of sight
the forest after a pass is the forest before it; so no pass changes which queues there are or what
applications hold.
-/

namespace FairShare
namespace Node

@[simp] theorem mapComposite_children {h : Composite → Composite}
    (same : ∀ c, (h c).children = c.children) (n : Node) :
    (n.mapComposite h).children = n.children := by
  cases hb : n.body <;> simp [mapComposite, children, hb, same]

/-- The queue without what counting demand writes. -/
def uncounted (n : Node) : Node :=
  match n.body with
  | .composite c => { n with body := .composite { c with demand := .zero } }
  | .leaf l => { n with body := .leaf { l with demand := .zero } }
  | .scripted s => { n with body := .scripted { s with demandUpdates := 0 } }

/-- The queue without its shares. -/
def unshared (n : Node) : Node := { n with fairShare := .zero, steadyShare := .zero }

/-- The queue without the times at which it was last not starved. -/
def unpaced (n : Node) : Node := { n with pacing := {} }

section

variable (n : Node)

@[simp] theorem uncounted_name : n.uncounted.name = n.name := by
  unfold uncounted
  split <;> rfl

@[simp] theorem uncounted_policy : n.uncounted.policy = n.policy := by
  unfold uncounted
  split <;> rfl

@[simp] theorem uncounted_isComposite : n.uncounted.isComposite = n.isComposite := by
  cases hb : n.body <;> simp [uncounted, isComposite, hb]

@[simp] theorem uncounted_isScripted : n.uncounted.isScripted = n.isScripted := by
  cases hb : n.body <;> simp [uncounted, isScripted, hb]

@[simp] theorem uncounted_children : n.uncounted.children = n.children := by
  cases hb : n.body <;> simp [uncounted, children, hb]

@[simp] theorem uncounted_apps : n.uncounted.apps = n.apps := by
  cases hb : n.body <;> simp [uncounted, apps, hb]

@[simp] theorem uncounted_pacing : n.uncounted.pacing = n.pacing := by
  unfold uncounted
  split <;> rfl

@[simp] theorem uncounted_sink : n.uncounted.sink = n.sink := by
  unfold uncounted
  split <;> rfl

@[simp] theorem uncounted_steadyShare : n.uncounted.steadyShare = n.steadyShare := by
  unfold uncounted
  split <;> rfl

theorem uncounted_mapComposite (demand : Composite → Resource) :
    (n.mapComposite fun c => { c with demand := demand c }).uncounted = n.uncounted := by
  cases hb : n.body <;> simp [uncounted, mapComposite, hb]

theorem uncounted_mapLeaf (demand : Leaf → Resource) :
    (n.mapLeaf fun l => { l with demand := demand l }).uncounted = n.uncounted := by
  cases hb : n.body <;> simp [uncounted, mapLeaf, hb]

theorem uncounted_mapScripted (updates : Scripted → Nat) :
    (n.mapScripted fun s => { s with demandUpdates := updates s }).uncounted = n.uncounted := by
  cases hb : n.body <;> simp [uncounted, mapScripted, hb]

theorem unshared_setShare (share : Resource) (kind : ShareKind) :
    (n.setShare share kind).unshared = n.unshared := by
  cases kind <;> rfl

end

/-- A queue is what it holds and all that counting does not write. -/
theorem eq_of_uncounted {n m : Node} (h : n.uncounted = m.uncounted) (body : n.body = m.body) :
    n = m := by
  cases n
  cases m
  subst body
  simp only [uncounted] at h
  split at h <;> simp_all

end Node

namespace Forest

/-- The forest with every queue replaced by what is seen of it. -/
def mapNodes (view : Node → Node) (f : Forest) : Forest := { f with nodes := f.nodes.map view }

def uncounted (f : Forest) : Forest := f.mapNodes Node.uncounted

/-- The forest without shares, those that were published included. -/
def unshared (f : Forest) : Forest := { f.mapNodes Node.unshared with metrics := #[] }

def unpaced (f : Forest) : Forest := f.mapNodes Node.unpaced

theorem node_mapNodes {view : Node → Node} (blank : view default = default) (f : Forest)
    (q : QueueId) : (f.mapNodes view).node q = view (f.node q) := by
  by_cases hq : q < f.nodes.size
  · simp [mapNodes, node, Array.getD_eq_getD_getElem?, hq]
  · simp [mapNodes, node, Array.getD_eq_getD_getElem?, hq, blank]

theorem mapNodes_update {view k : Node → Node} (unseen : ∀ n, view (k n) = view n) (f : Forest)
    (q : QueueId) : (f.update q k).mapNodes view = f.mapNodes view := by
  have nodes : (f.nodes.modify q k).map view = f.nodes.map view := by
    apply Array.ext
    · simp
    · intro i _ _
      by_cases hi : q = i <;> simp [Array.getElem_modify, hi, unseen]
  rw [mapNodes, mapNodes, update, nodes]

/-- The same queues in the same places, with the same applications. -/
structure Keeps (f g : Forest) : Prop extends Alike f g where
  apps : ∀ q, (g.node q).apps = (f.node q).apps

namespace Keeps

variable {f g h : Forest}

theorem refl (f : Forest) : Keeps f f := ⟨.refl f, fun _ => rfl⟩

theorem trans (fg : Keeps f g) (gh : Keeps g h) : Keeps f h :=
  ⟨fg.toAlike.trans gh.toAlike, fun q => (gh.apps q).trans (fg.apps q)⟩

theorem update (f : Forest) (q : QueueId) {k : Node → Node} (name : ∀ n, (k n).name = n.name)
    (scripted : ∀ n, (k n).isScripted = n.isScripted) (children : ∀ n, (k n).children = n.children)
    (apps : ∀ n, (k n).apps = n.apps) : Keeps f (f.update q k) where
  toAlike := .update f q name scripted (.of_eq (children _))
  apps p := by
    rw [node_update]
    split
    · exact apps _
    · rfl

theorem updateComposite (f : Forest) (q : QueueId) {k : Composite → Composite}
    (children : ∀ c, (k c).children = c.children) : Keeps f (f.updateComposite q k) :=
  .update f q (Node.mapComposite_name k) (Node.mapComposite_isScripted k)
    (Node.mapComposite_children children) (Node.mapComposite_apps k)

theorem metrics (f : Forest) (m : Metrics) : Keeps f { f with metrics := m } :=
  ⟨⟨rfl, rfl, fun _ => rfl, fun _ => rfl, fun _ => .refl _⟩, fun _ => rfl⟩

theorem running (fg : Keeps f g) (q : QueueId) : (g.node q).running = (f.node q).running := by
  rw [Node.running, Node.running, fg.apps]

theorem foldl {α : Type} {step : Forest → α → Forest} (each : ∀ f a, Keeps f (step f a))
    (l : List α) (f : Forest) : Keeps f (l.foldl step f) := by
  induction l generalizing f with
  | nil => exact .refl f
  | cons a rest ih => exact (each f a).trans (ih _)

end Keeps

theorem Reordered.keeps {f g : Forest} (fg : Reordered f g) : Keeps f g := ⟨fg.alike, fg.apps⟩

section

variable {f g : Forest} {view : Node → Node}

theorem view_node (blank : view default = default)
    (h : (g.mapNodes view).nodes = (f.mapNodes view).nodes) (q : QueueId) :
    view (g.node q) = view (f.node q) := by
  have seen : (g.mapNodes view).node q = (f.mapNodes view).node q := by rw [node, node, h]
  rwa [node_mapNodes blank, node_mapNodes blank] at seen

/-- A field that can be seen is the same in forests that look the same. -/
theorem field_of_view {α : Type} (field : Node → α) (unseen : ∀ n, field (view n) = field n)
    (blank : view default = default) (h : (g.mapNodes view).nodes = (f.mapNodes view).nodes)
    (q : QueueId) : field (g.node q) = field (f.node q) := by
  rw [← unseen, view_node blank h, unseen]

theorem keeps_of_view (blank : view default = default) (allocation : g.allocation = f.allocation)
    (h : (g.mapNodes view).nodes = (f.mapNodes view).nodes)
    (name : ∀ n, (view n).name = n.name) (scripted : ∀ n, (view n).isScripted = n.isScripted)
    (children : ∀ n, (view n).children = n.children) (apps : ∀ n, (view n).apps = n.apps) :
    Keeps f g where
  allocation := allocation
  size := by simpa [mapNodes] using congrArg Array.size h
  name := field_of_view Node.name name blank h
  scripted := field_of_view Node.isScripted scripted blank h
  children q := .of_eq (field_of_view Node.children children blank h q)
  apps := field_of_view Node.apps apps blank h

theorem node_of_uncounted (h : g.uncounted = f.uncounted) (q : QueueId) :
    (g.node q).uncounted = (f.node q).uncounted := view_node rfl (congrArg Forest.nodes h) q

theorem field_of_uncounted {α : Type} (field : Node → α)
    (unseen : ∀ n, field n.uncounted = field n) (h : g.uncounted = f.uncounted) (q : QueueId) :
    field (g.node q) = field (f.node q) :=
  field_of_view field unseen rfl (congrArg Forest.nodes h) q

theorem nodes_of_unshared (h : g.unshared = f.unshared) :
    (g.mapNodes Node.unshared).nodes = (f.mapNodes Node.unshared).nodes := by
  have nodes : g.unshared.nodes = f.unshared.nodes := by rw [h]
  exact nodes

theorem field_of_unshared {α : Type} (field : Node → α) (unseen : ∀ n, field n.unshared = field n)
    (h : g.unshared = f.unshared) (q : QueueId) : field (g.node q) = field (f.node q) :=
  field_of_view field unseen rfl (nodes_of_unshared h) q

theorem field_of_unpaced {α : Type} (field : Node → α) (unseen : ∀ n, field n.unpaced = field n)
    (h : g.unpaced = f.unpaced) (q : QueueId) : field (g.node q) = field (f.node q) :=
  field_of_view field unseen rfl (congrArg Forest.nodes h) q

theorem body_of_unshared (h : g.unshared = f.unshared) (q : QueueId) :
    (g.node q).body = (f.node q).body := field_of_unshared Node.body (fun _ => rfl) h q

theorem body_of_unpaced (h : g.unpaced = f.unpaced) (q : QueueId) :
    (g.node q).body = (f.node q).body := field_of_unpaced Node.body (fun _ => rfl) h q

theorem keeps_of_uncounted (h : g.uncounted = f.uncounted) : Keeps f g := by
  have allocation : g.uncounted.allocation = f.uncounted.allocation := by rw [h]
  exact keeps_of_view rfl allocation (congrArg Forest.nodes h) Node.uncounted_name
    Node.uncounted_isScripted Node.uncounted_children Node.uncounted_apps

theorem keeps_of_unshared (h : g.unshared = f.unshared) : Keeps f g := by
  have allocation : g.unshared.allocation = f.unshared.allocation := by rw [h]
  exact keeps_of_view rfl allocation (nodes_of_unshared h) (fun _ => rfl) (fun _ => rfl)
    (fun _ => rfl) fun _ => rfl

theorem keeps_of_unpaced (h : g.unpaced = f.unpaced) : Keeps f g := by
  have allocation : g.unpaced.allocation = f.unpaced.allocation := by rw [h]
  exact keeps_of_view rfl allocation (congrArg Forest.nodes h) (fun _ => rfl) (fun _ => rfl)
    (fun _ => rfl) fun _ => rfl

theorem shape_of_uncounted (h : g.uncounted = f.uncounted) (q : QueueId) :
    g.shape q = f.shape q :=
  shape_congr (keeps_of_uncounted h).size
    (field_of_uncounted Node.children Node.uncounted_children h) q

theorem shape_of_unshared (h : g.unshared = f.unshared) (q : QueueId) :
    g.shape q = f.shape q :=
  shape_congr (keeps_of_unshared h).size
    (field_of_unshared Node.children (fun _ => rfl) h) q

theorem shape_of_unpaced (h : g.unpaced = f.unpaced) (q : QueueId) : g.shape q = f.shape q :=
  shape_congr (keeps_of_unpaced h).size (field_of_unpaced Node.children (fun _ => rfl) h) q

end

theorem uncounted_countChildren {below : List Shape}
    (each : ∀ s ∈ below, ∀ f, (countDemand s f).uncounted = f.uncounted) (cap : Option Resource)
    (f : Forest) (total : Resource) (pinned : Bool) :
    (countChildren cap below f total pinned).1.uncounted = f.uncounted := by
  induction below generalizing f total pinned with
  | nil => rfl
  | cons s rest ih =>
    -- Once the total is pinned to the cap, the children that follow are not counted.
    have first : (if pinned then f else countDemand s f).uncounted = f.uncounted := by
      cases pinned with
      | true => rfl
      | false => exact each s (by simp) f
    exact (ih (fun s hs => each s (by simp [hs])) _ _ _).trans first

/-- Counting writes nothing but demands. -/
theorem uncounted_countDemand (s : Shape) (f : Forest) :
    (countDemand s f).uncounted = f.uncounted := by
  induction s generalizing f with
  | node q below ih =>
    rw [countDemand]
    split
    · exact (mapNodes_update (fun n => n.uncounted_mapComposite fun _ => _) _ q).trans
        (uncounted_countChildren ih _ f _ _)
    · exact mapNodes_update (fun n => n.uncounted_mapLeaf _) f q
    · exact mapNodes_update (fun n => n.uncounted_mapScripted _) f q

theorem keeps_countDemand (s : Shape) (f : Forest) : Keeps f (countDemand s f) :=
  keeps_of_uncounted (uncounted_countDemand s f)

theorem keeps_updateDemand (f : Forest) (q : QueueId) : Keeps f (f.updateDemand q) :=
  keeps_countDemand _ f

theorem unshared_setShare (kind : ShareKind) (f : Forest) (q : QueueId) (share : Resource) :
    (f.setShare kind q share).unshared = f.unshared := by
  rw [unshared, setShare, mapNodes_update fun n => n.unshared_setShare share kind]
  rfl

section handing

variable {P : Forest → Prop} {kind : ShareKind} {f : Forest}
  (set : ∀ f q share, P f → P (f.setShare kind q share))
  (publish : ∀ f q, P f → P (f.publish kind q))

include set in
theorem giveShares_preserves (start : P f) (queues : List QueueId) (shares : List Resource) :
    P (f.giveShares kind queues shares) := by
  unfold giveShares
  induction queues.zip shares generalizing f with
  | nil => exact start
  | cons x rest ih => exact ih (set f x.1 x.2 start)

include publish in
theorem publishAll_preserves {below : List Shape}
    (each : ∀ s ∈ below, ∀ f, P f → P (splitShares kind s f)) (start : P f) :
    P (publishAll kind below f) := by
  induction below generalizing f with
  | nil => exact start
  | cons s rest ih =>
    exact ih (fun s hs => each s (by simp [hs])) (each s (by simp) _ (publish f s.id start))

include set publish

/-- What holds whichever shares are set and published holds once shares are handed down. -/
theorem splitShares_preserves (s : Shape) (start : P f) : P (splitShares kind s f) := by
  induction s generalizing f with
  | node q below ih =>
    rw [splitShares]
    split
    · exact publishAll_preserves publish (fun s hs f => ih s hs)
        (giveShares_preserves set start _ _)
    · exact start

theorem distribute_preserves (root : QueueId) (capacity : Resource) (start : P f) :
    P (f.distribute kind root capacity) :=
  splitShares_preserves set publish _ (publish _ root (set f root capacity start))

end handing

theorem unshared_giveShares (kind : ShareKind) (f : Forest) (queues : List QueueId)
    (shares : List Resource) : (f.giveShares kind queues shares).unshared = f.unshared :=
  giveShares_preserves (P := fun g => g.unshared = f.unshared)
    (fun g q share h => (unshared_setShare kind g q share).trans h) rfl queues shares

/-- Handing down writes nothing but shares. -/
theorem unshared_splitShares (kind : ShareKind) (s : Shape) (f : Forest) :
    (splitShares kind s f).unshared = f.unshared :=
  splitShares_preserves (P := fun g => g.unshared = f.unshared)
    (fun g q share h => (unshared_setShare kind g q share).trans h) (fun _ _ h => h) s rfl

theorem unshared_publishAll (kind : ShareKind) (below : List Shape) (f : Forest) :
    (publishAll kind below f).unshared = f.unshared :=
  publishAll_preserves (P := fun g => g.unshared = f.unshared) (fun _ _ h => h)
    (fun s _ g h => (unshared_splitShares kind s g).trans h) rfl

theorem unshared_distribute (kind : ShareKind) (f : Forest) (root : QueueId)
    (capacity : Resource) : (f.distribute kind root capacity).unshared = f.unshared :=
  (unshared_splitShares kind _ ((f.setShare kind root capacity).publish kind root)).trans
    (unshared_setShare kind f root capacity)

theorem keeps_distribute (kind : ShareKind) (f : Forest) (root : QueueId) (capacity : Resource) :
    Keeps f (f.distribute kind root capacity) :=
  keeps_of_unshared (unshared_distribute kind f root capacity)

theorem unpaced_paceAll {now : Nat} {below : List Shape}
    (each : ∀ s ∈ below, ∀ f, (paceBelow now s f).unpaced = f.unpaced) (f : Forest) :
    (paceAll now below f).unpaced = f.unpaced := by
  induction below generalizing f with
  | nil => rfl
  | cons s rest ih =>
    exact (ih (fun s hs => each s (by simp [hs])) _).trans (each s (by simp) f)

/-- Recording writes nothing but times. -/
theorem unpaced_paceBelow (now : Nat) (s : Shape) (f : Forest) :
    (paceBelow now s f).unpaced = f.unpaced := by
  induction s generalizing f with
  | node q below ih =>
    have first (usage demand : Resource) : (f.pace q usage demand now).unpaced = f.unpaced := by
      rw [pace]
      exact mapNodes_update (by intro n; rfl) f q
    rw [paceBelow]
    exact (unpaced_paceAll ih _).trans (first _ _)

theorem keeps_paceBelow (now : Nat) (s : Shape) (f : Forest) : Keeps f (paceBelow now s f) :=
  keeps_of_unpaced (unpaced_paceBelow now s f)

/-- An update changes neither the queues nor what they hold. -/
theorem keeps_tick (f : Forest) (root : QueueId) (capacity : Resource) (now : Nat) :
    Keeps f (f.tick root capacity now) :=
  ((keeps_updateDemand f root).trans (keeps_distribute .fair _ root capacity)).trans
    (keeps_paceBelow now _ _)

end Forest
end FairShare
