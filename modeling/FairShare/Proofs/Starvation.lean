import FairShare.Proofs.Built
import FairShare.Proofs.Fresh
import FairShare.Proofs.Pacing

/-!
Leaves that are starved.  An update records that a leaf is at its minimum if the leaf uses the
smaller of its minimum and its demand.  For a leaf that the update counts, the demand is what its
applications hold and wait for; for any other leaf it is the demand that was counted last.
-/

namespace FairShare
namespace Resource

theorem get_le_exact {l : List Resource} {r : Resource} (h : r ∈ l) (dim : String) :
    r.get dim ≤ exact l dim := by
  calc
    r.get dim = exact [r] dim := by rw [exact_cons, exact_nil, Nat.add_zero]
    _ ≤ exact l dim := exact_sublist (List.singleton_sublist.2 h) dim

end Resource

namespace Leaf

variable {l : Leaf} {a : App} {r : Resource} {dim : String}

theorem exact_running_le (apps : List App) (dim : String) :
    Resource.exact ((apps.flatMap App.running).map Container.resource) dim ≤
      Resource.exact (apps.flatMap App.claims) dim := by
  rw [List.map_flatMap]
  apply Resource.exact_sublist
  exact .flatMap_right _ fun a _ => List.sublist_append_left _ _

/-- What waits comes on top of what runs. -/
theorem exact_running_add_le {apps : List App} (ha : a ∈ apps) (hr : r ∈ a.pending)
    (dim : String) :
    Resource.exact ((apps.flatMap App.running).map Container.resource) dim + r.get dim ≤
      Resource.exact (apps.flatMap App.claims) dim := by
  induction apps with
  | nil => cases ha
  | cons b rest ih =>
    rw [List.flatMap_cons, List.flatMap_cons, List.map_append, Resource.exact_append,
      Resource.exact_append, App.claims, Resource.exact_append]
    rcases List.mem_cons.1 ha with rfl | ha
    · have waits := Resource.get_le_exact hr dim
      have others := exact_running_le rest dim
      omega
    · have := ih ha
      omega

/-- As long as the usage has room to grow, a request that waits makes a leaf want more than it
uses. -/
theorem get_usage_lt (ha : a ∈ l.apps) (hr : r ∈ a.pending) (waits : 0 < r.get dim)
    (room : l.usage.get dim < maxAmount) :
    l.usage.get dim < (Resource.sum (l.apps.flatMap App.claims)).get dim := by
  have more := exact_running_add_le ha hr dim
  rw [l.usage_eq_usageOf, usageOf, Resource.get_sum] at room ⊢
  rw [Resource.get_sum]
  omega

end Leaf

theorem Node.leaf_of_uncounted {n m : Node} (h : n.uncounted = m.uncounted) {l : Leaf}
    (hb : m.body = .leaf l) : ∃ demand, n.body = .leaf { l with demand } := by
  have body : n.uncounted.body = m.uncounted.body := by rw [h]
  cases hn : n.body with
  | composite c => simp [uncounted, hn, hb] at body
  | leaf k =>
    have apps : k.apps = l.apps := by simpa [uncounted, hn, hb] using body
    exact ⟨k.demand, by rw [← apps]⟩
  | scripted s => simp [uncounted, hn, hb] at body

namespace Forest

open Resource (sum)

variable {f g : Forest} {root q : QueueId} {s t : Shape} {l : Leaf}

theorem Keeps.usageBelow (fg : Keeps f g) (carried : f.Carries s) :
    g.usageBelow s = f.usageBelow s := by
  rw [usageBelow_eq_usageOf carried, usageBelow_eq_usageOf (fg.carries carried),
    containersIn_congr fun p _ => fg.running p]

/-- What an update records for a queue depends on the demand that it has just counted. -/
theorem atMinShare_tick (tree : f.IsTree root) (capacity : Resource) (now : Nat)
    (ht : t ∈ (f.shape root).parts) :
    ((f.tick root capacity now).node t.id).pacing.atMinShare =
      if ((f.minShare t.id).meet ((f.updateDemand root).node t.id).demand).fitsIn
          (f.usageBelow t) then now
      else (f.node t.id).pacing.atMinShare := by
  have counted : (f.updateDemand root).uncounted = f.uncounted := uncounted_countDemand _ f
  have shared := unshared_distribute .fair (f.updateDemand root) root capacity
  have kept := (keeps_of_uncounted counted).trans (keeps_of_unshared shared)
  have shape := (shape_of_unshared shared root).trans (shape_of_uncounted counted root)
  have demand : (((f.updateDemand root).distribute .fair root capacity).node t.id).demand =
      ((f.updateDemand root).node t.id).demand := by
    rw [Node.demand, Node.demand, body_of_unshared shared]
  have own : (((f.updateDemand root).distribute .fair root capacity).node t.id).pacing =
      (f.node t.id).pacing :=
    (field_of_unshared Node.pacing (fun _ => rfl) shared t.id).trans
      (field_of_uncounted Node.pacing Node.uncounted_pacing counted t.id)
  -- The pass that records times sees usages and minima as they were before the update.
  rw [tick, updatePacing, shape]
  generalize (f.updateDemand root).distribute .fair root capacity = h at kept demand own ⊢
  have carried := kept.carries tree.carries
  rw [node_paceBelow carried.known carried.distinct ht]
  show (if h.isAtMinShare t then now else (h.node t.id).pacing.atMinShare) = _
  rw [isAtMinShare, kept.minShare, demand, kept.usageBelow (tree.carries.of_mem_parts ht), own]

/-- What follows the count leaves the demands as they are. -/
theorem demand_tick (f : Forest) (root : QueueId) (capacity : Resource) (now : Nat) (q : QueueId) :
    ((f.tick root capacity now).node q).demand = ((f.updateDemand root).node q).demand := by
  have paced := unpaced_paceBelow now
    (((f.updateDemand root).distribute .fair root capacity).shape root)
    ((f.updateDemand root).distribute .fair root capacity)
  have shared := unshared_distribute .fair (f.updateDemand root) root capacity
  rw [tick, updatePacing, demand_of_unpaced paced, Node.demand, Node.demand,
    body_of_unshared shared]

theorem demand_updateDemand_of_leaf (tree : f.IsTree root) (hb : (f.node q).body = .leaf l) :
    ((f.updateDemand root).node q).demand =
      if q ∈ f.refreshes root then cut (f.maxShare q) (sum (f.node q).claims) else l.demand := by
  have follows := tree.rooted.follows
  split
  case isTrue h =>
    have counted : (f.updateDemand root).uncounted = f.uncounted := uncounted_countDemand _ f
    obtain ⟨demand, hb'⟩ := Node.leaf_of_uncounted (node_of_uncounted counted q) hb
    have settled : ((f.updateDemand root).node q).demand = (f.updateDemand root).due q :=
      demand_of_refreshed follows h
    rw [settled, due, hb']
    dsimp only
    rw [(keeps_of_uncounted counted).maxShare, Leaf.want_eq_sum, Node.claims, Node.apps_of_leaf hb]
  case isFalse h =>
    have unchanged : (f.updateDemand root).node q = f.node q := node_of_not_refreshed follows h
    rw [unchanged, Node.demand, hb]

/-- What an update records for a leaf depends on what the leaf wants, if the update counts it. -/
theorem atMinShare_tick_of_leaf (tree : f.IsTree root) (capacity : Resource) (now : Nat)
    (hq : q ∈ f.queues root) (hb : (f.node q).body = .leaf l) :
    ((f.tick root capacity now).node q).pacing.atMinShare =
      if ((f.minShare q).meet
          (if q ∈ f.refreshes root then cut (f.maxShare q) (sum (f.node q).claims)
            else l.demand)).fitsIn (f.usage q) then now
      else (f.node q).pacing.atMinShare := by
  rw [queues_eq_ids] at hq
  obtain ⟨s, hs, rfl⟩ := List.mem_map.1 hq
  have usage : f.usage s.id = f.usageBelow s := by rw [Forest.usage, tree.shape_of_mem_parts hs]
  rw [atMinShare_tick tree capacity now hs, demand_updateDemand_of_leaf tree hb, usage]

/-- A leaf that wants more of a dimension, and may have it, is not at its minimum while it uses less
than the minimum of it. -/
theorem not_fitsIn_of_pending (least : ∀ most ∈ f.maxShare q, (f.minShare q).fitsUnder most = true)
    (hb : (f.node q).body = .leaf l) {a : App} (ha : a ∈ l.apps) {r : Resource}
    (hr : r ∈ a.pending) {dim : String} (waits : 0 < r.get dim)
    (starved : l.usage.get dim < (f.minShare q).get dim) :
    ((f.minShare q).meet (cut (f.maxShare q) (sum (f.node q).claims))).fitsIn l.usage = false := by
  have bound := (f.minShare q).get_le dim
  have room : l.usage.get dim < maxAmount := Nat.lt_of_lt_of_le starved bound
  have wants := Leaf.get_usage_lt ha hr waits room
  -- The cap leaves room up to the minimum.
  have headroom : l.usage.get dim < ceiling (f.maxShare q) dim := by
    cases hcap : f.maxShare q with
    | none => exact room
    | some most =>
      have fits := Resource.fitsUnder_iff.1 (least most hcap) dim
      rw [ceiling]
      split <;> omega
  refine Bool.eq_false_iff.2 fun fits => ?_
  have at_dim := Resource.fitsIn_iff.1 fits dim
  rw [Resource.get_meet, get_cut, Node.claims, Node.apps_of_leaf hb] at at_dim
  omega

end Forest

/-- A root with a cap, over two leaves of which the second is guaranteed some memory. -/
def twoLeaves (cap : Option Resource) : Allocation :=
  { queues := Table.ofList
      [("root", { maxResources := cap }), ("root.a", {}),
        ("root.b", { minResources := some (.ofMemoryCores 2 0) })] }

/-- A request for memory in both leaves. -/
def bothAsk : List Event :=
  [.submit 1 ⟨⟨1⟩, 1⟩ "ann", .request 1 ⟨⟨1⟩, 1⟩ (.ofMemoryCores 4 0),
    .submit 2 ⟨⟨2⟩, 1⟩ "bob", .request 2 ⟨⟨2⟩, 1⟩ (.ofMemoryCores 2 0)]

open Forest (cut isPinned)

/-- In a tree that was built and on which regular operations were performed, an update records that
a leaf is at its minimum exactly if the leaf uses the smaller of its minimum and its demand, which
is what its applications hold and wait for if the update counts the leaf, and else the demand
counted last.  So a leaf that is counted and waits for what it is guaranteed is not recorded; and a
leaf that is not counted lies below a queue that demands its cap. -/
theorem atMinShare_of_run {resolve : String → Except TreeError Policy} {a : Allocation}
    {asked : List String} {t : QueueTree} (built : QueueTree.build resolve a = (asked, .ok t))
    {events : List Event} (regular : ∀ e ∈ events, e.isRegular t.root = true) (d : Scheduler)
    (now : Nat) :
    let f := (System.run { tree := t } events).forest
    let g := d.update f t.root now
    ∀ q ∈ f.queues t.root, ∀ l, (f.node q).body = .leaf l →
      let demand :=
        if q ∈ f.refreshes t.root then cut (f.maxShare q) (.sum (f.node q).claims) else l.demand
      (g.node q).pacing.atMinShare =
          (if ((f.minShare q).meet demand).fitsIn (f.usage q) then now
            else (f.node q).pacing.atMinShare) ∧
        (q ∈ f.refreshes t.root →
          ∀ a ∈ l.apps, ∀ r ∈ a.pending, ∀ dim, 0 < r.get dim →
            (f.usage q).get dim < (f.minShare q).get dim →
              (g.node q).pacing.atMinShare = (f.node q).pacing.atMinShare) ∧
        (q ∉ f.refreshes t.root →
          ∃ c ∈ f.queues t.root, c ≠ q ∧ q ∈ f.queues c ∧
            isPinned (f.maxShare c) (g.node c).demand = true) := by
  intro f g q hq l hb demand
  obtain ⟨tree, allocation⟩ : f.IsTree t.root ∧ f.allocation = a := System.built_run built regular
  have ticks : g = f.tick t.root d.capacity now := rfl
  have usage : f.usage q = l.usage := Forest.usage_of_leaf hb
  have recorded : (g.node q).pacing.atMinShare =
      if ((f.minShare q).meet demand).fitsIn (f.usage q) then now
      else (f.node q).pacing.atMinShare := by
    rw [ticks, Forest.atMinShare_tick_of_leaf tree d.capacity now hq hb]
  refine ⟨recorded, fun counted a ha r hr dim waits starved => ?_, fun left => ?_⟩
  · have least : ∀ most ∈ f.maxShare q, (f.minShare q).fitsUnder most = true := by
      rw [Forest.maxShare, Forest.minShare, allocation]
      exact Allocation.minResources_fitsUnder (QueueTree.build_allocation built).1 _
    have exact_demand : demand = cut (f.maxShare q) (.sum (f.node q).claims) := if_pos counted
    rw [usage] at starved
    have hungry := Forest.not_fitsIn_of_pending least hb ha hr waits starved
    rw [recorded, exact_demand, usage, hungry]
    rfl
  · -- The count passed the leaf over because a queue above it was at its cap.
    have mem : q ∈ (f.shape t.root).ids := f.queues_eq_ids t.root ▸ hq
    obtain ⟨u, hu, other, below, pinned⟩ :=
      Forest.isPinned_of_not_refreshed tree.rooted.follows mem left
    refine ⟨u.id, ?_, other, ?_, ?_⟩
    · rw [Forest.queues_eq_ids]
      exact Shape.id_mem_ids_of_mem_parts hu
    · rwa [Forest.queues_eq_ids, tree.shape_of_mem_parts hu]
    · rw [ticks, Forest.demand_tick]
      exact pinned

/-- Without a cap at the root both leaves are counted, and the second is not recorded. -/
theorem atMinShare_of_run_sample :
    ∃ asked t, QueueTree.build QueueTree.resolveNamed (twoLeaves none) = (asked, .ok t) ∧
      (∀ e ∈ bothAsk, e.isRegular t.root = true) ∧
      let f := (System.run { tree := t } bothAsk).forest
      let g := Scheduler.update { capacity := .ofMemoryCores 8 8 } f t.root 5
      2 ∈ f.refreshes t.root ∧
        (g.node 2).pacing.atMinShare = (f.node 2).pacing.atMinShare := by
  have facts : ∀ t ∈ (QueueTree.build QueueTree.resolveNamed (twoLeaves none)).2.toOption,
      (∀ e ∈ bothAsk, e.isRegular t.root = true) ∧
        let f := (System.run { tree := t } bothAsk).forest
        2 ∈ f.queues t.root ∧ 2 ∈ f.refreshes t.root ∧
          (f.node 2).body = .leaf
            { apps := [{ attempt := ⟨⟨2⟩, 1⟩, user := "bob", pending := [.ofMemoryCores 2 0] }] } ∧
          (f.usage 2).get Resource.memoryDim < (f.minShare 2).get Resource.memoryDim := by
    decide +kernel
  obtain ⟨asked, t, built, regular, mem, counted, body, starved⟩ :=
    QueueTree.exists_built (by decide +kernel) facts
  refine ⟨asked, t, built, regular, counted, ?_⟩
  obtain ⟨-, hungry, -⟩ :=
    atMinShare_of_run built regular { capacity := .ofMemoryCores 8 8 } 5 2 mem _ body
  exact hungry counted _ List.mem_cons_self _ List.mem_cons_self Resource.memoryDim (by decide)
    starved

/-- With a cap at the root that the first leaf fills, the second leaf is recorded, although it uses
nothing and waits for all that it is guaranteed. -/
theorem atMinShare_of_stale_demand :
    ∃ asked t,
      QueueTree.build QueueTree.resolveNamed (twoLeaves (some (.ofMemoryCores 4 0))) =
        (asked, .ok t) ∧
      (∀ e ∈ bothAsk, e.isRegular t.root = true) ∧
      let f := (System.run { tree := t } bothAsk).forest
      let g := Scheduler.update { capacity := .ofMemoryCores 8 8 } f t.root 5
      2 ∈ f.queues t.root ∧ f.usage 2 = .zero ∧ f.minShare 2 = .ofMemoryCores 2 0 ∧
        (f.node 2).claims = [.ofMemoryCores 2 0] ∧ (f.node 2).pacing.atMinShare = 0 ∧
        (g.node 2).pacing.atMinShare = 5 ∧
        (g.node 2).pacing.atMinShare ≠
          if ((f.minShare 2).meet (cut (f.maxShare 2) (.sum (f.node 2).claims))).fitsIn
              (f.usage 2) then 5
          else (f.node 2).pacing.atMinShare :=
  QueueTree.exists_built (by decide +kernel) (by decide +kernel)

end FairShare
