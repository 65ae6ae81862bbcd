import FairShare.Proofs.Handing
import FairShare.Proofs.Recount

/-!
Shares in place.  After a capacity was handed down every child has what its parent gives it by
splitting the share that the parent ends up with, so that splitting it once more changes nothing,
and every sink shows the share of its queue.  Fair shares are handed down with the demands of the
same update, and what is handed down later, be it times or the other kind of share, leaves them
alone.
-/

namespace FairShare

def Sink.share (s : Sink) : ShareKind → Resource
  | .fair => s.fairShare
  | .steady => s.steadyShare

theorem Sink.share_setShare (s : Sink) (share : Resource) (kind : ShareKind) :
    (s.setShare share kind).share kind = share := by
  cases kind <;> rfl

theorem Sink.eq_setShare (s : Sink) (last : Option Resource) (kind : ShareKind) :
    last.elim s (fun share => s.setShare share kind) =
      s.setShare ((last.elim s fun share => s.setShare share kind).share kind) kind := by
  cases last <;> cases kind <;> rfl

namespace Node

theorem share_setShare_of_ne {kind other : ShareKind} (h : other ≠ kind) (n : Node)
    (share : Resource) : (n.setShare share kind).share other = n.share other := by
  cases kind <;> cases other <;> first | rfl | exact absurd rfl h

/-- A queue is what is seen of it without its shares, and its two shares. -/
theorem eq_withSteady {n m : Node} (h : n.unshared = m.unshared)
    (fair : n.fairShare = m.fairShare) : n = { m with steadyShare := n.steadyShare } := by
  cases n
  cases m
  simp_all [unshared]

end Node

namespace Metrics

variable {kind : ShareKind} {l : List (SinkId × Resource)}

theorem sink_eq_getD (m : Metrics) (id : SinkId) : m.sink id = (m[id]?).getD default := by
  rw [sink, Array.getD_eq_getD_getElem?]

theorem getElem?_writeShares_of_not_mem {id : SinkId} (h : id ∉ l.map Prod.fst) (m : Metrics) :
    (writeShares kind l m)[id]? = m[id]? := by
  induction l generalizing m with
  | nil => rfl
  | cons x rest ih =>
    rw [List.map_cons, List.mem_cons, not_or] at h
    calc
      (writeShares kind rest (m.setShare x.1 x.2 kind))[id]? = (m.setShare x.1 x.2 kind)[id]? :=
        ih h.2 _
      _ = m[id]? := by rw [getElem?_setShare, if_neg (Ne.symm h.1)]

/-- Distinct sinks end up with the shares that are written into them. -/
theorem share_sink_writeShares (distinct : (l.map Prod.fst).Nodup) {x : SinkId × Resource}
    (hx : x ∈ l) {m : Metrics} (known : x.1 < m.size) :
    ((writeShares kind l m).sink x.1).share kind = x.2 := by
  induction l generalizing m with
  | nil => cases hx
  | cons y rest ih =>
    obtain ⟨hy, distinct⟩ := List.nodup_cons.1 distinct
    have step : writeShares kind (y :: rest) m =
        writeShares kind rest (m.setShare y.1 y.2 kind) := rfl
    rw [step]
    rcases List.mem_cons.1 hx with rfl | hx
    · -- Nothing that is written later goes into this sink.
      have entry : m[x.1]? = some m[x.1] := Array.getElem?_eq_getElem known
      rw [sink_eq_getD, getElem?_writeShares_of_not_mem hy, getElem?_setShare, if_pos rfl, entry]
      exact Sink.share_setShare _ _ kind
    · apply ih distinct hx
      have size : (m.setShare y.1 y.2 kind).size = m.size := by
        cases kind <;> exact Array.size_modify
      rwa [size]

/-- Writing shares leaves everything else in a sink as it was. -/
theorem sink_writeShares (kind : ShareKind) (l : List (SinkId × Resource)) (m : Metrics)
    (id : SinkId) : ∃ share, (writeShares kind l m).sink id = (m.sink id).setShare share kind := by
  obtain ⟨last, hlast⟩ := getElem?_writeShares kind l id
  rw [sink_eq_getD, sink_eq_getD, hlast]
  cases m[id]? with
  | none => exact ⟨(default : Sink).share kind, by cases kind <;> rfl⟩
  | some s => exact ⟨_, s.eq_setShare last kind⟩

end Metrics

namespace Forest

/-- A forest after a queue has split its share among its children once more. -/
def resplit (kind : ShareKind) (f : Forest) (q : QueueId) : Forest :=
  f.giveShares kind (f.node q).children
    ((f.node q).policy.splitOf kind ((f.node q).share kind)
      ((f.node q).children.map fun c => f.standing (f.shape c)))

/-- The queues below a root, the root included, have sinks of their own. -/
structure OwnSinks (f : Forest) (root : QueueId) : Prop where
  known : ∀ q ∈ f.queues root, (f.node q).sink < f.metrics.size
  distinct : ((f.queues root).map fun q => (f.node q).sink).Nodup

instance (f : Forest) (root : QueueId) : Decidable (f.OwnSinks root) :=
  decidable_of_iff ((∀ q ∈ f.queues root, (f.node q).sink < f.metrics.size) ∧
      ((f.queues root).map fun q => (f.node q).sink).Nodup)
    ⟨fun h => ⟨h.1, h.2⟩, fun h => ⟨h.known, h.distinct⟩⟩

/-- Forests with the same queues in the same order, that may differ in demands, shares and times. -/
structure Retains (f g : Forest) : Prop extends Keeps f g where
  listed : ∀ q, (g.node q).children = (f.node q).children
  policy : ∀ q, (g.node q).policy = (f.node q).policy
  sink : ∀ q, (g.node q).sink = (f.node q).sink
  composite : ∀ q, (g.node q).isComposite = (f.node q).isComposite

namespace Retains

variable {f g : Forest} {root : QueueId} (retains : Retains f g)

include retains

theorem shape (q : QueueId) : g.shape q = f.shape q := shape_congr retains.size retains.listed q

theorem queues (q : QueueId) : g.queues q = f.queues q := by
  rw [queues_eq_ids, queues_eq_ids, retains.shape]

theorem follows (rooted : f.IsRooted root) : g.Follows (g.shape root) := by
  rw [retains.shape]
  exact rooted.follows.congr retains.size retains.listed

theorem policies {P : Policy → Prop}
    (h : ∀ q ∈ f.queues root, (f.node q).isComposite = true → P (f.node q).policy) :
    ∀ q ∈ g.queues root, (g.node q).isComposite = true → P (g.node q).policy := by
  intro q hq composite
  rw [retains.queues] at hq
  rw [retains.composite] at composite
  rw [retains.policy]
  exact h q hq composite

end Retains

/-- Shares are in place: the root has the capacity, every child of a composite queue has what its
parent gives it by splitting the share that it ends up with itself, and the sinks show the shares of
their queues.  The shares are those that `share` reads, `split` splits and `shown` shows. -/
structure InPlace (share : Node → Resource)
    (split : Policy → Resource → List Standing → List Resource) (shown : Sink → Resource)
    (root : QueueId) (capacity : Resource) (f : Forest) : Prop where
  whole : share (f.node root) = capacity
  divided : ∀ q ∈ f.queues root, (f.node q).isComposite = true →
    ∀ x ∈ (f.node q).children.zip (split (f.node q).policy (share (f.node q))
        ((f.node q).children.map fun c => f.standing (f.shape c))),
      share (f.node x.1) = x.2
  published : ∀ q ∈ f.queues root, shown (f.metrics.sink (f.node q).sink) = share (f.node q)

section

variable {kind other : ShareKind} {f g : Forest} {root : QueueId} {capacity : Resource}
  {before : Metrics} {s t : Shape}

/-- What the split of a queue gives its children, in the order of the child list. -/
theorem Follows.splitOf_eq_zip (follows : f.Follows s) (ht : t ∈ s.parts) (kind : ShareKind) :
    f.splitOf kind t = (f.node t.id).children.zip
      ((f.node t.id).policy.splitOf kind ((f.node t.id).share kind)
        ((f.node t.id).children.map fun c => f.standing (f.shape c))) := by
  have standings : t.subtrees.map (fun u => f.standing (f.shape u.id)) =
      t.subtrees.map f.standing := by
    apply List.map_congr_left
    intro u hu
    obtain ⟨q, below⟩ := t
    have part : u ∈ (Shape.node q below).parts :=
      Shape.mem_parts_node.2 (.inr ⟨u, hu, u.self_mem_parts⟩)
    rw [follows.shape_of_mem_parts (Shape.parts_trans ht part)]
  rw [splitOf, follows.unfolds t ht, List.map_map]
  exact congrArg _ (congrArg _ standings.symm)

theorem share_distribute_of_ne (h : other ≠ kind) (f : Forest) (root q : QueueId)
    (capacity : Resource) :
    ((f.distribute kind root capacity).node q).share other = (f.node q).share other := by
  refine distribute_preserves
    (P := fun g => (g.node q).share other = (f.node q).share other) ?_ ?_ root capacity rfl
  · intro g p share same
    rw [setShare, node_update]
    split
    · exact (Node.share_setShare_of_ne h _ share).trans same
    · exact same
  · intro g p same
    exact same

theorem metrics_updateDemand (f : Forest) (q : QueueId) :
    (f.updateDemand q).metrics = f.metrics := by
  have same : (f.updateDemand q).uncounted = f.uncounted := uncounted_countDemand _ f
  have metrics : (f.updateDemand q).uncounted.metrics = f.uncounted.metrics := by rw [same]
  exact metrics

/-- What none of the three passes of an update writes stays as it is. -/
theorem field_tick {α : Type} (field : Node → α) (counted : ∀ n, field n.uncounted = field n)
    (shared : ∀ n, field n.unshared = field n) (paced : ∀ n, field n.unpaced = field n)
    (f : Forest) (root q : QueueId) (capacity : Resource) (now : Nat) :
    field ((f.tick root capacity now).node q) = field (f.node q) := by
  rw [tick, updatePacing]
  calc
    _ = field (((f.updateDemand root).distribute .fair root capacity).node q) :=
      field_of_unpaced field paced (unpaced_paceBelow now _ _) q
    _ = field ((f.updateDemand root).node q) :=
      field_of_unshared field shared (unshared_distribute .fair _ root capacity) q
    _ = field (f.node q) := field_of_uncounted field counted (uncounted_countDemand _ f) q

theorem steadyShare_tick (f : Forest) (root q : QueueId) (capacity : Resource) (now : Nat) :
    ((f.tick root capacity now).node q).steadyShare = (f.node q).steadyShare := by
  rw [tick, updatePacing]
  calc
    _ = (((f.updateDemand root).distribute .fair root capacity).node q).steadyShare :=
      field_of_unpaced Node.steadyShare (fun _ => rfl) (unpaced_paceBelow now _ _) q
    _ = ((f.updateDemand root).node q).steadyShare :=
      share_distribute_of_ne (show ShareKind.steady ≠ .fair by simp) _ root q capacity
    _ = (f.node q).steadyShare :=
      field_of_uncounted Node.steadyShare Node.uncounted_steadyShare (uncounted_countDemand _ f) q

/-- An update hands the capacity down, whatever the policies. -/
theorem distributed_tick (rooted : f.IsRooted root) (capacity : Resource) (now : Nat) :
    Distributed .fair root capacity f.metrics (f.tick root capacity now) := by
  have counted : (f.updateDemand root).uncounted = f.uncounted := uncounted_countDemand _ f
  have follows : (f.updateDemand root).Follows ((f.updateDemand root).shape root) := by
    rw [shape_of_uncounted counted]
    exact rooted.follows.of_uncounted counted
  have handed : Distributed .fair root capacity _ _ := distributed_distribute follows capacity
  rw [metrics_updateDemand] at handed
  exact handed.of_unpaced (unpaced_paceBelow now _ _)

theorem retains_distribute (kind : ShareKind) (f : Forest) (root : QueueId)
    (capacity : Resource) : Retains f (f.distribute kind root capacity) where
  toKeeps := keeps_distribute kind f root capacity
  listed :=
    field_of_unshared Node.children (fun _ => rfl) (unshared_distribute kind f root capacity)
  policy := field_of_unshared Node.policy (fun _ => rfl) (unshared_distribute kind f root capacity)
  sink := field_of_unshared Node.sink (fun _ => rfl) (unshared_distribute kind f root capacity)
  composite :=
    field_of_unshared Node.isComposite (fun _ => rfl) (unshared_distribute kind f root capacity)

theorem retains_tick (f : Forest) (root : QueueId) (capacity : Resource) (now : Nat) :
    Retains f (f.tick root capacity now) where
  toKeeps := keeps_tick f root capacity now
  listed q := field_tick Node.children Node.uncounted_children (fun _ => rfl) (fun _ => rfl) f root
    q capacity now
  policy q := field_tick Node.policy Node.uncounted_policy (fun _ => rfl) (fun _ => rfl) f root q
    capacity now
  sink q := field_tick Node.sink Node.uncounted_sink (fun _ => rfl) (fun _ => rfl) f root q
    capacity now
  composite q := field_tick Node.isComposite Node.uncounted_isComposite (fun _ => rfl)
    (fun _ => rfl) f root q capacity now

/-- What was handed down is in place, if it went into sinks of its own. -/
theorem Distributed.inPlace (distributed : Distributed kind root capacity f.metrics g)
    (retains : Retains f g) (rooted : f.IsRooted root) (own : f.OwnSinks root)
    (policies : ∀ q ∈ f.queues root, (f.node q).isComposite = true →
      (f.node q).policy.WritesByDemand kind) :
    InPlace (fun n => n.share kind) (fun p => p.splitOf kind) (fun s => s.share kind) root capacity
      g := by
  -- The shares changed but no queue moved, so the forest splits along the shape it had before.
  have splits : g.Splits kind (g.shape root) := by
    refine ⟨retains.follows rooted, fun q hq => ?_⟩
    rw [← queues_eq_ids] at hq
    exact retains.policies (P := fun p => p.WritesByDemand kind) policies q hq
  refine ⟨distributed.share, ?_, ?_⟩
  · intro q hq composite
    rw [queues_eq_ids] at hq
    obtain ⟨t, ht, rfl⟩ := List.mem_map.1 hq
    rw [← splits.follows.splitOf_eq_zip ht]
    exact distributed.given.settled splits t ht composite
  · intro q hq
    have ids : ((g.published kind (g.queues root)).map Prod.fst).Nodup := by
      rw [published, List.map_map, retains.queues]
      exact (List.map_congr_left fun q _ => retains.sink q) ▸ own.distinct
    have entry : ((g.node q).sink, (g.node q).share kind) ∈ g.published kind (g.queues root) :=
      List.mem_map_of_mem hq
    have known : (g.node q).sink < f.metrics.size := by
      rw [retains.sink]
      exact own.known q (retains.queues root ▸ hq)
    rw [distributed.metrics]
    exact Metrics.share_sink_writeShares ids entry known

/-- A queue whose children have what it gives them changes nothing by splitting its share again. -/
theorem InPlace.resplit_eq
    (placed : InPlace (fun n => n.share kind) (fun p => p.splitOf kind) (fun s => s.share kind) root
      capacity g) :
    ∀ q ∈ g.queues root, (g.node q).isComposite = true → g.resplit kind q = g :=
  fun q hq composite => giveShares_of_share (placed.divided q hq composite)

/-- Where queues have sinks of their own and the policies write shares by names, weights and
demands, an update puts the fair shares in place and a new capacity puts the steady ones in place,
so that no composite queue changes anything by splitting its share again.  Neither changes the
shares of the other kind, and they change nothing else but the demands, the fair shares and the
times, or the steady shares. -/
theorem shares_inPlace (rooted : f.IsRooted root) (own : f.OwnSinks root) (d : Scheduler) :
    ((∀ q ∈ f.queues root, (f.node q).isComposite = true →
        (f.node q).policy.WritesByDemand .fair) →
      ∀ now, let g := d.update f root now
        InPlace Node.fairShare Policy.split Sink.fairShare root d.capacity g ∧
        ∀ q ∈ g.queues root, (g.node q).isComposite = true → g.resplit .fair q = g) ∧
    ((∀ q ∈ f.queues root, (f.node q).isComposite = true →
        (f.node q).policy.WritesByDemand .steady) →
      ∀ capacity, let g := (d.setCapacity f root capacity).1
        InPlace Node.steadyShare Policy.splitSteady Sink.steadyShare root capacity g ∧
        ∀ q ∈ g.queues root, (g.node q).isComposite = true → g.resplit .steady q = g) ∧
    (∀ now, let g := d.update f root now
      g.allocation = f.allocation ∧
      (∀ q, (g.node q).children = (f.node q).children ∧ (g.node q).apps = (f.node q).apps ∧
        (g.node q).policy = (f.node q).policy ∧ (g.node q).sink = (f.node q).sink ∧
        (g.node q).steadyShare = (f.node q).steadyShare) ∧
      ∀ id, ∃ share, g.metrics.sink id = { f.metrics.sink id with fairShare := share }) ∧
    ∀ capacity, let g := (d.setCapacity f root capacity).1
      g.allocation = f.allocation ∧
      (∀ q, g.node q = { f.node q with steadyShare := (g.node q).steadyShare }) ∧
      ∀ id, ∃ share, g.metrics.sink id = { f.metrics.sink id with steadyShare := share } := by
  have ticked := distributed_tick rooted d.capacity
  have handed : ∀ capacity, Distributed .steady root capacity f.metrics _ :=
    distributed_distribute rooted.follows
  refine ⟨fun policies now => ?_, fun policies capacity => ?_, ?_, ?_⟩
  · have placed :=
      (ticked now).inPlace (retains_tick f root d.capacity now) rooted own policies
    exact ⟨placed, placed.resplit_eq⟩
  · have placed :=
      (handed capacity).inPlace (retains_distribute .steady f root capacity) rooted own policies
    exact ⟨placed, placed.resplit_eq⟩
  · intro now g
    have retains : Retains f g := retains_tick f root d.capacity now
    refine ⟨retains.allocation, fun q => ?_, fun id => ?_⟩
    · exact ⟨retains.listed q, retains.apps q, retains.policy q, retains.sink q,
        steadyShare_tick f root q d.capacity now⟩
    · have metrics : g.metrics = _ := (ticked now).metrics
      rw [metrics]
      exact Metrics.sink_writeShares .fair _ f.metrics id
  · intro capacity g
    have shared : g.unshared = f.unshared := unshared_distribute .steady f root capacity
    refine ⟨(keeps_of_unshared shared).allocation, fun q => ?_, fun id => ?_⟩
    · have seen : (g.node q).unshared = (f.node q).unshared :=
        view_node rfl (nodes_of_unshared shared) q
      have fair : (g.node q).share .fair = (f.node q).share .fair :=
        share_distribute_of_ne (by simp) f root q capacity
      exact Node.eq_withSteady seen fair
    · have metrics : g.metrics = _ := (handed capacity).metrics
      rw [metrics]
      exact Metrics.sink_writeShares .steady _ f.metrics id

end

/-- A root that shares equally, over a queue that shares by demand and over one that shares nothing;
the leaf below the latter has old shares. -/
def mixedSample : Forest where
  allocation := {}
  metrics := #["root", "root.a", "root.a.x", "root.a.y", "root.b", "root.b.z"].map
    fun queue => { queue, parent := none, capacity := 4 }
  nodes :=
    #[{ name := "root", parent := none, policy := .rank, sink := 0
        body := .composite { children := [1, 4] } },
      { name := "root.a", parent := some 0, policy := .demand, sink := 1
        body := .composite { children := [2, 3] } },
      { name := "root.a.x", parent := some 1, policy := .demand, sink := 2
        body := .leaf
          { apps := [{ attempt := ⟨⟨1⟩, 1⟩, user := "ann", pending := [.ofMemoryCores 15 1] }] } },
      { name := "root.a.y", parent := some 1, policy := .demand, sink := 3, body := .leaf {} },
      { name := "root.b", parent := some 0, policy := .nameDesc, sink := 4
        body := .composite { children := [5] } },
      { name := "root.b.z", parent := some 4, policy := .nameDesc, sink := 5
        fairShare := .ofMemoryCores 7 0, steadyShare := .ofMemoryCores 9 0, body := .leaf {} }]

/-- The same queues, with one below the root that shares by weight. -/
def weighedSample : Forest :=
  mixedSample.mapNodes fun n => if n.name = "root.a" then { n with policy := .fair } else n

/-- Shares are split down to the leaves, and those that no policy writes are shown as they are. -/
theorem shares_inPlace_sample :
    let d : Scheduler := { capacity := .ofMemoryCores 20 4 }
    let g := d.update mixedSample 0 5
    let h := (d.setCapacity weighedSample 0 (.ofMemoryCores 30 6)).1
    (mixedSample.IsRooted 0 ∧ mixedSample.OwnSinks 0 ∧
      InPlace Node.fairShare Policy.split Sink.fairShare 0 (.ofMemoryCores 20 4) g ∧
      (g.queues 0).map (fun q => (g.metrics.sink (g.node q).sink).fairShare) =
        [.ofMemoryCores 20 4, .ofMemoryCores 10 2, .ofMemoryCores 10 1, .zero,
          .ofMemoryCores 10 2, .ofMemoryCores 7 0]) ∧
    weighedSample.IsRooted 0 ∧ weighedSample.OwnSinks 0 ∧
      InPlace Node.steadyShare Policy.splitSteady Sink.steadyShare 0 (.ofMemoryCores 30 6) h ∧
      (h.queues 0).map (fun q => (h.metrics.sink (h.node q).sink).steadyShare) =
        [.ofMemoryCores 30 6, .ofMemoryCores 30 6, .ofMemoryCores 15 3, .ofMemoryCores 15 3,
          .ofMemoryCores 30 6, .ofMemoryCores 9 0] := by
  intro d g h
  have mixedRooted : mixedSample.IsRooted 0 := by decide
  have mixedOwn : mixedSample.OwnSinks 0 := by decide +kernel
  have weighedRooted : weighedSample.IsRooted 0 := by decide +kernel
  have weighedOwn : weighedSample.OwnSinks 0 := by decide +kernel
  have mixedNamed : ∀ q ∈ mixedSample.queues 0, (mixedSample.node q).policy ∈ Policy.catalogue := by
    rw [show mixedSample.queues 0 = [0, 1, 2, 3, 4, 5] by decide]
    simp [mixedSample, node, Policy.catalogue]
  have weighedNamed :
      ∀ q ∈ weighedSample.queues 0, (weighedSample.node q).policy ∈ Policy.catalogue := by
    rw [show weighedSample.queues 0 = [0, 1, 2, 3, 4, 5] by decide +kernel]
    simp [weighedSample, mixedSample, mapNodes, node, Policy.catalogue]
  obtain ⟨fair, -, -⟩ := shares_inPlace mixedRooted mixedOwn d
  obtain ⟨-, steady, -⟩ := shares_inPlace weighedRooted weighedOwn d
  obtain ⟨inPlaceFair, -⟩ := fair
    (fun q hq _ => (Policy.splitsByDemand_of_mem_catalogue (mixedNamed q hq) .fair).writes) 5
  obtain ⟨inPlaceSteady, -⟩ := steady
    (fun q hq _ => (Policy.splitsByDemand_of_mem_catalogue (weighedNamed q hq) .steady).writes)
    (.ofMemoryCores 30 6)
  exact ⟨⟨mixedRooted, mixedOwn, inPlaceFair, by decide +kernel⟩, weighedRooted, weighedOwn,
    inPlaceSteady, by decide +kernel⟩

end Forest
end FairShare
