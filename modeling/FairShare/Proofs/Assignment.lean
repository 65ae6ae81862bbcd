import FairShare.Forest.Applications
import FairShare.Proofs.Offer

/-!
Which container an assignment places.  A leaf is eligible for a machine that is not reserved if the
queues on the way down to it are all under their caps and it has a first request that fits.  The
first eligible leaf is served, and nothing else changes but the order of siblings.

A request for nothing is granted like any other, and whoever made the offer cannot tell this from no
grant at all.  So the scan goes on behind it, and an assignment that gives nothing may have placed
containers.
-/

namespace FairShare
namespace Forest

/-- Whether a queue uses no more than it may. -/
def isUnderCap (f : Forest) (q : QueueId) : Bool :=
  (f.maxShare q).all fun cap => (f.usage q).fitsUnder cap

/-- The queues on the way from a queue down to a leaf. -/
def way (f : Forest) (q leaf : QueueId) : List QueueId :=
  (f.queues q).filter fun p => (f.queues p).contains leaf

/-- Whether a leaf below a queue can be given a container on a machine. -/
def eligible (f : Forest) (machine : Machine) (q leaf : QueueId) : Bool :=
  machine.reserved.isNone && (f.way q leaf).all f.isUnderCap &&
    (f.node leaf).apps.any fun a => (a.offerable machine.available).isSome

variable {f : Forest} {machine : Machine} {q leaf : QueueId}

theorem accepts_shape (f : Forest) (machine : Machine) (q : QueueId) :
    f.accepts machine (f.shape q) = (machine.reserved.isNone && f.isUnderCap q) := by
  rw [accepts, id_shape, isUnderCap, usage]
  cases f.maxShare q <;> rfl

theorem isOpen_shape (tree : f.IsTree q) (hleaf : leaf ∈ f.queues q) :
    f.isOpen machine (f.shape q) leaf =
      (machine.reserved.isNone && (f.way q leaf).all f.isUnderCap) := by
  have accepted (t : Shape) (ht : t ∈ (f.shape q).parts) :
      f.accepts machine t = (machine.reserved.isNone && f.isUnderCap t.id) := by
    rw [← accepts_shape, tree.shape_of_mem_parts ht]
  have below (t : Shape) (ht : t ∈ (f.shape q).parts) : f.queues t.id = t.ids := by
    rw [queues_eq_ids, tree.shape_of_mem_parts ht]
  rw [Bool.eq_iff_iff, isOpen_iff, Bool.and_eq_true, List.all_eq_true]
  constructor
  · intro opened
    constructor
    · have root := opened _ (Shape.self_mem_parts _) (f.queues_eq_ids q ▸ hleaf)
      rw [accepts_shape, Bool.and_eq_true] at root
      exact root.1
    · intro p hp
      obtain ⟨hp, hl⟩ := List.mem_filter.1 hp
      rw [queues_eq_ids] at hp
      obtain ⟨t, ht, rfl⟩ := List.mem_map.1 hp
      have hl : leaf ∈ t.ids := by rwa [below t ht, List.contains_iff_mem] at hl
      have := opened t ht hl
      rw [accepted t ht, Bool.and_eq_true] at this
      exact this.2
  · rintro ⟨free, under⟩ t ht hl
    have ht' : t.id ∈ f.queues q := f.queues_eq_ids q ▸ Shape.id_mem_ids_of_mem_parts ht
    have hl' : (f.queues t.id).contains leaf = true := by rwa [below t ht, List.contains_iff_mem]
    rw [accepted t ht, free, under t.id (List.mem_filter.2 ⟨ht', hl'⟩)]
    rfl

theorem isSome_offerable (n : Node) (available : Resource) :
    (n.offerable available).isSome = n.apps.any fun a => (a.offerable available).isSome := by
  rw [Bool.eq_iff_iff, Node.offerable, List.findSome?_isSome_iff, List.any_eq_true]

theorem grantsAt_shape (tree : f.IsTree q) (hleaf : leaf ∈ f.queues q) :
    f.grantsAt machine (f.shape q) leaf = f.eligible machine q leaf := by
  rw [grantsAt, isOpen_shape tree hleaf, eligible, isSome_offerable]

/-- Only a leaf is eligible. -/
theorem eligible_of_not_leaf (other : ∀ l, (f.node leaf).body ≠ .leaf l) :
    f.eligible machine q leaf = false := by
  have none : (f.node leaf).apps = [] := by
    cases hb : (f.node leaf).body with
    | leaf l => exact absurd hb (other l)
    | composite c => exact Node.apps_of_composite hb
    | scripted s => rw [Node.apps, hb]
  rw [eligible, none, List.any_nil, Bool.and_false]

/-- If no leaf of the walk is eligible, none is. -/
theorem eligible_eq_false_of_find?_walk (tree : f.IsTree q)
    (none : (f.walk f.ranking (f.shape q)).find? (f.eligible machine q) = none)
    (hleaf : leaf ∈ f.queues q) : f.eligible machine q leaf = false := by
  by_cases isLeaf : ∃ l, (f.node leaf).body = .leaf l
  · obtain ⟨l, hb⟩ := isLeaf
    rw [queues_eq_ids] at hleaf
    have := List.find?_eq_none.1 none leaf (mem_walk hleaf tree.carries hb)
    simpa using this
  · exact eligible_of_not_leaf fun l hb => isLeaf ⟨l, hb⟩

namespace Reordered

variable {g : Forest} (fg : Reordered f g)

include fg

theorem usage (tree : f.IsTree q) : g.usage q = f.usage q := by
  rw [usage_eq_usageOf tree, usage_eq_usageOf (fg.alike.isTree tree)]
  exact usageOf_perm (fg.containers q)

theorem isUnderCap (tree : f.IsTree q) : g.isUnderCap q = f.isUnderCap q := by
  rw [Forest.isUnderCap, Forest.isUnderCap, fg.maxShare, fg.usage tree]

theorem all_isUnderCap (tree : f.IsTree q) :
    (g.way q leaf).all g.isUnderCap = (f.way q leaf).all f.isUnderCap := by
  have on (p : QueueId) : p ∈ g.way q leaf ↔ p ∈ f.way q leaf := by
    simp only [way, List.mem_filter, List.contains_iff_mem, fg.alike.mem_queues]
  rw [Bool.eq_iff_iff, List.all_eq_true, List.all_eq_true]
  refine forall_congr' fun p => ?_
  rw [on p]
  refine imp_congr_right fun hp => ?_
  rw [fg.isUnderCap (tree.of_mem_queues (List.mem_of_mem_filter hp))]

/-- Whether a leaf is eligible does not depend on the order of siblings. -/
theorem eligible (tree : f.IsTree q) : g.eligible machine q leaf = f.eligible machine q leaf := by
  rw [Forest.eligible, Forest.eligible, fg.all_isUnderCap tree, fg.apps]

/-- Nor does it matter which of the two shapes is asked whether the way to a queue is open. -/
theorem isOpen_shape (tree : f.IsTree q) (hleaf : leaf ∈ f.queues q) :
    g.isOpen machine (g.shape q) leaf = f.isOpen machine (f.shape q) leaf := by
  rw [Forest.isOpen_shape tree hleaf, Forest.isOpen_shape (fg.alike.isTree tree)
    (fg.alike.mem_queues.2 hleaf), fg.all_isUnderCap tree]

end Reordered

/-- What an assignment places: it begins with the first eligible leaf of the walk. -/
theorem places_assign (tree : f.IsTree q) (machine : Machine) :
    ∃ qs, Places machine.available (mayTake machine (f.shape q)) f qs (f.assign machine q).1
        (f.assign machine q).2 ∧
      qs.head? = (f.walk f.ranking (f.shape q)).find? (f.eligible machine q) := by
  obtain ⟨qs, placed, head⟩ := answers_offer machine (f.shape q) tree.carries
  refine ⟨qs, placed, head.trans (List.find?_congr fun leaf hleaf => ?_)⟩
  exact grantsAt_shape tree (f.queues_eq_ids q ▸ mem_ids_of_mem_walk hleaf)

/-- The first request that fits, of the first application of a leaf that has one, becomes a
container; apart from that only siblings change their order. -/
def ServesFirst (available : Resource) (f : Forest) (leaf : QueueId) (request : Resource)
    (g : Forest) : Prop :=
  ∃ l before a rest after, (f.node leaf).body = .leaf l ∧ l.apps = before ++ a :: after ∧
    (∀ b ∈ before, b.offerable available = none) ∧
    a.pending = request :: rest ∧ request.fitsIn available = true ∧
    let served : App :=
      { a with
        pending := rest
        running := a.running ++ [⟨⟨a.attempt, a.nextSequence⟩, request⟩]
        nextSequence := a.nextSequence + 1 }
    Reordered (f.update leaf fun n =>
      { n with body := .leaf { l with apps := before ++ served :: after } }) g

theorem servesFirst_grant {available request : Resource}
    (found : (f.node leaf).offerable available = some request) {g : Forest}
    (order : Reordered (f.grant available leaf) g) : ServesFirst available f leaf request g := by
  obtain ⟨l, before, a, rest, after, hb, happs, hbefore, hp, fits, hg⟩ :=
    Node.grant_of_offerable found
  refine ⟨l, before, a, rest, after, hb, happs, hbefore, hp, fits, ?_⟩
  have served : a.served 1 =
      { a with
        pending := rest
        running := a.running ++ [⟨⟨a.attempt, a.nextSequence⟩, request⟩]
        nextSequence := a.nextSequence + 1 } := by
    simp [App.served, hp]
  have granted : f.grant available leaf = f.update leaf fun n =>
      { n with body := .leaf { l with apps := before ++ a.served 1 :: after } } := update_congr hg
  rw [granted, served] at order
  exact order

/-- An assignment below a queue serves the first eligible leaf of the walk. -/
theorem assign_serves_first_eligible (machine : Machine) (tree : f.IsTree q)
    (nonzero : ∀ p ∈ f.queues q, ∀ a ∈ (f.node p).apps, .zero ∉ a.pending)
    (orders : ∀ p ∈ f.queues q, Std.TransCmp (f.node p).policy.compare) :
    (∀ p ∉ f.queues q, (f.assign machine q).1.node p = f.node p) ∧
      match (f.walk f.stableRanking (f.shape q)).find? (f.eligible machine q) with
      | some leaf =>
        ServesFirst machine.available f leaf (f.assign machine q).2 (f.assign machine q).1
      | none => (f.assign machine q).2 = .zero ∧ Reordered f (f.assign machine q).1 := by
  have ids := f.queues_eq_ids q
  constructor
  · intro p hp
    exact node_offer_of_not_mem (ids ▸ hp) f
  obtain ⟨qs, placed, head⟩ := places_assign tree machine
  rw [walk_stableRanking (ids ▸ orders), ← head]
  generalize f.assign machine q = answer at placed ⊢
  obtain ⟨g, granted⟩ := answer
  cases placed with
  | none order => exact ⟨rfl, order⟩
  | last order allowed found used =>
    rw [order.node_eq (Node.offerable_withChildren machine.available)] at found
    exact servesFirst_grant found (order.grant _ _)
  | next order allowed found rest =>
    rw [order.node_eq (Node.offerable_withChildren machine.available)] at found
    obtain ⟨l, before, a, rest, after, hb, happs, -, hp, -, -⟩ := Node.grant_of_offerable found
    refine absurd ?_ (nonzero _ (ids ▸ allowed.1) a ?_)
    · simp [hp]
    · simp [Node.apps_of_leaf hb, happs]

/-- A root over a queue with one leaf and over a leaf that is above its cap. -/
def sample : Forest where
  allocation :=
    { queues := Table.ofList [("root.b", { maxResources := some (.ofMemoryCores 1 0) })] }
  nodes :=
    #[{ name := "root", parent := none, policy := .nameDesc, sink := 0
        body := .composite { children := [1, 3] } },
      { name := "root.a", parent := some 0, policy := .nameDesc, sink := 1
        body := .composite { children := [2] } },
      { name := "root.a.x", parent := some 1, policy := .nameDesc, sink := 2
        body := .leaf
          { apps := [{ attempt := ⟨⟨1⟩, 1⟩, user := "ann", pending := [.ofMemoryCores 4 1] }] } },
      { name := "root.b", parent := some 0, policy := .nameDesc, sink := 3
        body := .leaf
          { apps :=
              [{ attempt := ⟨⟨2⟩, 1⟩, user := "bob", pending := [.ofMemoryCores 1 1]
                 running := [⟨⟨⟨⟨2⟩, 1⟩, 1⟩, .ofMemoryCores 2 1⟩], nextSequence := 2 }] } }]

theorem sample_orders (p : QueueId) (hp : p ∈ sample.queues 0) :
    Std.TransCmp (sample.node p).policy.compare := by
  have queues : sample.queues 0 = [0, 1, 2, 3] := by decide
  have policy : (sample.node p).policy = .nameDesc := by
    simp only [queues, List.mem_cons, List.not_mem_nil, or_false] at hp
    rcases hp with rfl | rfl | rfl | rfl <;> rfl
  rw [policy]
  exact Policy.transCmp_of_mem_catalogue (by simp [Policy.catalogue])

/-- The leaf above its cap comes first in the order of names and is passed over. -/
theorem assign_serves_first_eligible_sample :
    sample.IsTree 0 ∧
      ServesFirst (.ofMemoryCores 8 8) sample 2 (.ofMemoryCores 4 1)
        (sample.assign ⟨"m", .ofMemoryCores 8 8, none⟩ 0).1 := by
  have served := (assign_serves_first_eligible ⟨"m", .ofMemoryCores 8 8, none⟩
    (by decide : sample.IsTree 0) (by decide +kernel) sample_orders).2
  rw [walk_stableRanking (sample.queues_eq_ids 0 ▸ sample_orders),
    show (sample.walk sample.ranking (sample.shape 0)).find?
      (sample.eligible ⟨"m", .ofMemoryCores 8 8, none⟩ 0) = some 2 by decide +kernel,
    show (sample.assign ⟨"m", .ofMemoryCores 8 8, none⟩ 0).2 = .ofMemoryCores 4 1 by
      decide +kernel] at served
  exact ⟨by decide, served⟩

theorem mem_queues_of_mayTake {root : QueueId} (tree : f.IsTree root) (hq : q ∈ f.queues root)
    (g : Forest) (p : QueueId) (fg : Alike f g) (allowed : mayTake machine (f.shape q) g p) :
    p ∈ g.queues root :=
  fg.mem_queues.2 (tree.mem_queues_trans hq (f.queues_eq_ids q ▸ allowed.1))

/-- An assignment places one container at most and tells whether it did, unless the first eligible
leaf is granted nothing. -/
theorem assign_places_one_iff {root : QueueId} (tree : f.IsTree root) (hq : q ∈ f.queues root) :
    (((f.assign machine q).1.containers root).length ≤ (f.containers root).length + 1 ∧
        ((f.assign machine q).2 = .zero →
          ∀ p, ((f.assign machine q).1.node p).apps = (f.node p).apps)) ↔
      ∀ leaf, (f.walk f.ranking (f.shape q)).find? (f.eligible machine q) = some leaf →
        (f.node leaf).offerable machine.available ≠ some .zero := by
  obtain ⟨qs, placed, head⟩ := places_assign (tree.of_mem_queues hq) machine
  obtain ⟨added, hperm, hadded, -⟩ := placed.containers tree (mem_queues_of_mayTake tree hq)
  have length : ((f.assign machine q).1.containers root).length =
      (f.containers root).length + qs.length := by
    rw [hperm.length_eq, List.length_append, hadded, Nat.add_comm]
  rw [← head]
  generalize f.assign machine q = answer at placed length ⊢
  obtain ⟨g, granted⟩ := answer
  cases placed with
  | none order => simp [length, order.apps]
  | last order allowed found used =>
    have nonzero : granted ≠ .zero := fun h => by simp [h, Resource.isZero_zero] at used
    rw [order.node_eq (Node.offerable_withChildren machine.available)] at found
    simp [length, nonzero, found]
  | @next _ h _ p ps _ order allowed found rest =>
    rw [order.node_eq (Node.offerable_withChildren machine.available)] at found
    simp only [List.head?_cons, Option.some.injEq, forall_eq', found, ne_eq, not_true_eq_false,
      iff_false]
    rintro ⟨one, same⟩
    rw [length, List.length_cons] at one
    obtain rfl : ps = [] := List.length_eq_zero_iff.1 (by omega)
    cases rest with
    | none last =>
      have fg := (order.alike.trans (alike_grant _ _ _)).trans last.alike
      have := (fg.containers_perm (fun p => by rw [Node.running, Node.running, same rfl]) root)
      rw [this.length_eq, List.length_singleton] at length
      omega

theorem assign_places_one_sample :
    sample.IsTree 0 ∧ 0 ∈ sample.queues 0 ∧
      ((sample.assign ⟨"m", .ofMemoryCores 8 8, none⟩ 0).1.containers 0).length ≤
        (sample.containers 0).length + 1 := by
  have tree : sample.IsTree 0 := by decide
  have root : 0 ∈ sample.queues 0 := by decide
  have first : ∀ leaf, (sample.walk sample.ranking (sample.shape 0)).find?
      (sample.eligible ⟨"m", .ofMemoryCores 8 8, none⟩ 0) = some leaf →
      (sample.node leaf).offerable (.ofMemoryCores 8 8) ≠ some .zero := by
    rw [show (sample.walk sample.ranking (sample.shape 0)).find?
      (sample.eligible ⟨"m", .ofMemoryCores 8 8, none⟩ 0) = some 2 by decide +kernel]
    rintro leaf ⟨⟩
    decide +kernel
  exact ⟨tree, root, ((assign_places_one_iff tree root).2 first).1⟩

/-- The sample after the attempt in its second leaf ended and another one asked there for nothing. -/
def askedForNothing : Option Forest := do
  let (f, _) ← sample.finish? 3 ⟨⟨2⟩, 1⟩
  let f ← f.submit? 3 ⟨⟨3⟩, 1⟩ "eve"
  f.request? 3 ⟨⟨3⟩, 1⟩ .zero

/-- A grant of nothing is not told on a small machine, and on a large one it is one of two. -/
theorem assign_places_untold :
    askedForNothing.isSome ∧ ∀ f ∈ askedForNothing,
      f.IsTree 0 ∧
        ((f.assign ⟨"m", .ofMemoryCores 1 1, none⟩ 0).2 = .zero ∧
          ((f.assign ⟨"m", .ofMemoryCores 1 1, none⟩ 0).1.node 3).apps ≠ (f.node 3).apps) ∧
        ((f.assign ⟨"m", .ofMemoryCores 8 8, none⟩ 0).1.containers 0).length =
          (f.containers 0).length + 2 := by
  decide +kernel

end Forest
end FairShare
