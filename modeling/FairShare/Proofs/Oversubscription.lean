import FairShare.Proofs.Consistent

/-!
No oversubscription.  If every policy shares out no more than it has to split, then the children of
a queue have no more than the queue, and by induction on the shape neither has any set of queues
below it of which none lies below another.  So the leaves have no more than the capacity of the
cluster, however deep they lie and whatever was handed down before.
-/

namespace FairShare

/-- A policy that gives every sibling a share, all of them no more than there is to split. -/
def Policy.SharesOut (p : Policy) (kind : ShareKind) : Prop :=
  ∀ total l, (p.splitOf kind total l).length = l.length ∧
    ∀ dim, Resource.exact (p.splitOf kind total l) dim ≤ total.get dim

namespace Resource

theorem exact_replicate (n : Nat) (r : Resource) (dim : String) :
    exact (List.replicate n r) dim = n * r.get dim := by
  induction n with
  | zero => rw [List.replicate_zero, exact_nil, Nat.zero_mul]
  | succ n ih => rw [List.replicate_succ, exact_cons, ih, Nat.succ_mul, Nat.add_comm]

theorem exact_flatMap_le {α : Type} {l : List α} {parts : α → List Resource} {whole : α → Resource}
    {dim : String} (fits : ∀ a ∈ l, exact (parts a) dim ≤ (whole a).get dim) :
    exact (l.flatMap parts) dim ≤ exact (l.map whole) dim := by
  induction l with
  | nil => exact Nat.le_refl 0
  | cons a l ih =>
    rw [List.flatMap_cons, exact_append, List.map_cons, exact_cons]
    exact Nat.add_le_add (fits a (by simp)) (ih fun b hb => fits b (by simp [hb]))

end Resource

/-- Equal parts, rounded down, are no more than the whole. -/
theorem Policy.sharesOut_rank : rank.SharesOut .fair := by
  intro total l
  refine ⟨List.length_map _, fun dim => ?_⟩
  have parts (whole : Nat) : l.length * (whole / max l.length 1) ≤ whole :=
    calc
      l.length * (whole / max l.length 1) ≤ max l.length 1 * (whole / max l.length 1) :=
        Nat.mul_le_mul_right _ (Nat.le_max_left _ _)
      _ ≤ whole := Nat.mul_div_le whole _
  have split : Resource.exact (rank.splitOf .fair total l) dim = l.length *
      (Resource.ofMemoryCores (total.memory / max l.length 1)
        (total.cores / max l.length 1)).get dim := by
    have all : rank.splitOf .fair total l = List.replicate l.length (.ofMemoryCores
        (total.memory / max l.length 1) (total.cores / max l.length 1)) := List.map_const' ..
    rw [all, Resource.exact_replicate]
  rw [split, Resource.ofMemoryCores, Resource.get_set, Resource.get_set, Resource.get_zero]
  have memory := parts total.memory
  have cores := parts total.cores
  split
  · next h =>
    subst h
    exact (Nat.mul_le_mul_left _ (Nat.min_le_left _ _)).trans cores
  split
  · next h =>
    subst h
    exact (Nat.mul_le_mul_left _ (Nat.min_le_left _ _)).trans memory
  · exact Nat.zero_le _

/-- Queues of a shape of which none lies below another have no more than the queue of the shape, if
the children of each queue have no more than the queue. -/
theorem Shape.exact_filter_le {s : Shape} (amount : QueueId → Resource) {chosen : QueueId → Bool}
    {dim : String}
    (fits : ∀ t ∈ s.parts,
      Resource.exact (t.subtrees.map fun u => amount u.id) dim ≤ (amount t.id).get dim)
    (apart : ∀ t ∈ s.parts, chosen t.id = true → ∀ q ∈ t.inner, chosen q = false) :
    Resource.exact ((s.ids.filter chosen).map amount) dim ≤ (amount s.id).get dim := by
  induction s with
  | node q below ih =>
    have self := Shape.self_mem_parts (.node q below)
    rw [Shape.ids_node]
    cases hq : chosen q with
    | true =>
      -- Nothing else is chosen below a queue that is.
      have none : (below.flatMap Shape.ids).filter chosen = [] := by
        rw [List.filter_eq_nil_iff]
        intro p hp
        rw [apart _ self hq p hp]
        exact Bool.false_ne_true
      rw [List.filter_cons_of_pos hq, none, List.map_singleton, Resource.exact_cons,
        Resource.exact_nil, Nat.add_zero, Shape.id_node]
    | false =>
      have each : ∀ s ∈ below,
          Resource.exact ((s.ids.filter chosen).map amount) dim ≤ (amount s.id).get dim := by
        intro s hs
        apply ih s hs
        · exact fun t ht => fits t (Shape.mem_parts_node.2 (.inr ⟨s, hs, ht⟩))
        · exact fun t ht => apart t (Shape.mem_parts_node.2 (.inr ⟨s, hs, ht⟩))
      rw [List.filter_cons_of_neg (by simp [hq]), List.filter_flatMap, List.map_flatMap]
      calc
        Resource.exact (below.flatMap fun s => (s.ids.filter chosen).map amount) dim ≤
            Resource.exact (below.map fun s => amount s.id) dim := Resource.exact_flatMap_le each
        _ ≤ (amount q).get dim := fits _ self

namespace Forest

/-- Different queues below a root, the root included, of which none lies below another. -/
structure Apart (f : Forest) (root : QueueId) (l : List QueueId) : Prop where
  among : ∀ q ∈ l, q ∈ f.queues root
  distinct : l.Nodup
  apart : ∀ p ∈ l, ∀ q ∈ l, q ∈ f.queues p → q = p

instance (f : Forest) (root : QueueId) (l : List QueueId) : Decidable (f.Apart root l) :=
  decidable_of_iff ((∀ q ∈ l, q ∈ f.queues root) ∧ l.Nodup ∧
      ∀ p ∈ l, ∀ q ∈ l, q ∈ f.queues p → q = p)
    ⟨fun h => ⟨h.1, h.2.1, h.2.2⟩, fun h => ⟨h.among, h.distinct, h.apart⟩⟩

/-- The queues below a root that can have no queues below them. -/
def leavesBelow (f : Forest) (root : QueueId) : List QueueId :=
  (f.queues root).filter fun q => !(f.node q).isComposite

section

variable {kind : ShareKind} {f g : Forest} {root : QueueId} {capacity : Resource}
  {before : Metrics} {l : List QueueId} {s t : Shape}

theorem Follows.subtrees_eq_nil (h : f.Follows s) (leaf : (f.node s.id).isComposite = false) :
    s.subtrees = [] := by
  cases s with
  | node q below =>
    apply h.below_eq_nil
    intro c hc
    rw [Shape.id_node, Node.isComposite, hc] at leaf
    cases leaf

theorem apart_leavesBelow (rooted : f.IsRooted root) : f.Apart root (f.leavesBelow root) where
  among q hq := (List.mem_filter.1 hq).1
  distinct := rooted.distinct.filter _
  apart p hp q _ below := by
    obtain ⟨hp, leaf⟩ := List.mem_filter.1 hp
    rw [queues_eq_ids] at hp
    obtain ⟨t, ht, rfl⟩ := List.mem_map.1 hp
    have none := (rooted.follows.of_mem_parts ht).subtrees_eq_nil (by simpa using leaf)
    rw [queues_eq_ids, rooted.follows.shape_of_mem_parts ht, Shape.ids_eq_cons, Shape.inner, none]
      at below
    simpa using below

/-- The children of a queue have no more than the queue if its policy shares out no more. -/
theorem Given.children_le (given : f.Given kind s) (follows : f.Follows s)
    (policies : ∀ p ∈ s.ids, (f.node p).isComposite = true → (f.node p).policy.SharesOut kind)
    (ht : t ∈ s.parts) (dim : String) :
    Resource.exact (t.subtrees.map fun u => (f.node u.id).share kind) dim ≤
      ((f.node t.id).share kind).get dim := by
  cases composite : (f.node t.id).isComposite with
  | false =>
    rw [(follows.of_mem_parts ht).subtrees_eq_nil composite]
    exact Nat.zero_le _
  | true =>
    obtain ⟨b, alike, shares⟩ := given t ht composite
    have policy := policies t.id (Shape.id_mem_ids_of_mem_parts ht) composite
    rw [alike.policy] at policy
    obtain ⟨length, fits⟩ := policy ((b.node t.id).share kind) (t.subtrees.map b.standing)
    generalize hparts : (b.node t.id).policy.splitOf kind ((b.node t.id).share kind)
      (t.subtrees.map b.standing) = parts at length fits
    have split : b.splitOf kind t = (t.subtrees.map Shape.id).zip parts := by rw [splitOf, hparts]
    rw [split] at shares
    rw [List.length_map, ← List.length_map (f := Shape.id)] at length
    -- Every child has its part of the split, so the parts are what the children have.
    have each : t.subtrees.map (fun u => (f.node u.id).share kind) = parts :=
      calc
        _ = (t.subtrees.map Shape.id).map fun c => (f.node c).share kind := by
          rw [List.map_map]
          rfl
        _ = ((t.subtrees.map Shape.id).zip parts).map fun x => (f.node x.1).share kind := by
          conv_lhs => rw [← List.map_fst_zip length.ge, List.map_map]
          rfl
        _ = ((t.subtrees.map Shape.id).zip parts).map Prod.snd := List.map_congr_left shares
        _ = parts := List.map_snd_zip length.le
    rw [each, alike.share t.id (by simp)]
    exact fits dim

/-- What queues apart from each other have is no more than what was handed down. -/
theorem Distributed.exact_le (distributed : Distributed kind root capacity before g)
    (retains : Retains f g) (rooted : f.IsRooted root)
    (policies : ∀ q ∈ f.queues root, (f.node q).isComposite = true →
      (f.node q).policy.SharesOut kind)
    (apart : f.Apart root l) (dim : String) :
    Resource.exact (l.map fun q => (g.node q).share kind) dim ≤ capacity.get dim := by
  have follows := rooted.follows
  have chosen : l.Perm ((f.shape root).ids.filter (· ∈ l)) := by
    apply (List.perm_ext_iff_of_nodup apart.distinct (follows.distinct.filter _)).2
    intro q
    rw [List.mem_filter, decide_eq_true_eq, ← queues_eq_ids]
    exact ⟨fun hq => ⟨apart.among q hq, hq⟩, And.right⟩
  have fits : ∀ t ∈ (f.shape root).parts,
      Resource.exact (t.subtrees.map fun u => (g.node u.id).share kind) dim ≤
        ((g.node t.id).share kind).get dim := by
    intro t ht
    rw [← retains.shape] at ht
    apply distributed.given.children_le (retains.follows rooted) _ ht
    intro p hp
    rw [← queues_eq_ids] at hp
    exact retains.policies (P := fun p => p.SharesOut kind) policies p hp
  -- Whatever is inside a part is among the queues of its top, so that two chosen ones are the same.
  have alone : ∀ t ∈ (f.shape root).parts, decide (t.id ∈ l) = true →
      ∀ q ∈ t.inner, decide (q ∈ l) = false := by
    intro t ht ht' q hq
    rw [decide_eq_true_eq] at ht'
    rw [decide_eq_false_iff_not]
    intro hq'
    have inside : q ∈ f.queues t.id := by
      rw [queues_eq_ids, follows.shape_of_mem_parts ht]
      exact t.inner_subset_ids hq
    rw [apart.apart _ ht' q hq' inside] at hq
    exact (follows.of_mem_parts ht).id_not_mem_inner hq
  calc
    Resource.exact (l.map fun q => (g.node q).share kind) dim =
        Resource.exact (((f.shape root).ids.filter (· ∈ l)).map fun q => (g.node q).share kind)
          dim := Resource.exact_perm (chosen.map _) dim
    _ ≤ ((g.node (f.shape root).id).share kind).get dim :=
      Shape.exact_filter_le (fun q => (g.node q).share kind) fits alone
    _ = capacity.get dim := by rw [id_shape, distributed.share]

/-- If no policy shares out more than it has to split, queues of which none lies below another, such
as the leaves, have no more than the capacity: no more fair share after an update, and no more
steady share after a change of the capacity.  To give equal parts is to share out no more. -/
theorem exact_shares_le (rooted : f.IsRooted root) (d : Scheduler) :
    f.Apart root (f.leavesBelow root) ∧ Policy.rank.SharesOut .fair ∧
    ((∀ q ∈ f.queues root, (f.node q).isComposite = true → (f.node q).policy.SharesOut .fair) →
      ∀ l, f.Apart root l → ∀ now dim,
        Resource.exact (l.map fun q => ((d.update f root now).node q).fairShare) dim ≤
          d.capacity.get dim) ∧
    ((∀ q ∈ f.queues root, (f.node q).isComposite = true → (f.node q).policy.SharesOut .steady) →
      ∀ l, f.Apart root l → ∀ capacity dim,
        Resource.exact (l.map fun q => ((d.setCapacity f root capacity).1.node q).steadyShare) dim ≤
          capacity.get dim) := by
  refine ⟨apart_leavesBelow rooted, Policy.sharesOut_rank, ?_, ?_⟩
  · intro policies l apart now dim
    have retains := retains_tick f root d.capacity now
    exact (distributed_tick rooted d.capacity now).exact_le retains rooted policies apart dim
  · intro policies l apart capacity dim
    have retains := retains_distribute .steady f root capacity
    exact (distributed_distribute rooted.follows capacity).exact_le retains rooted policies apart dim

end

/-- Equal parts of both shares. -/
def evenly : Policy := { Policy.rank with splitSteady := Policy.rank.split }

/-- The queues of `mixedSample`, all with equal parts. -/
def evenSample : Forest := mixedSample.mapNodes fun n => { n with policy := evenly }

/-- A queue and the leaves beside it have no more than the capacity, and neither do the leaves. -/
theorem exact_shares_le_sample :
    let d : Scheduler := { capacity := .ofMemoryCores 21 5 }
    let g := d.update evenSample 0 5
    let h := (d.setCapacity evenSample 0 (.ofMemoryCores 30 6)).1
    evenSample.IsRooted 0 ∧ evenSample.leavesBelow 0 = [2, 3, 5] ∧ evenSample.Apart 0 [1, 5] ∧
      [2, 3, 5].map (fun q => (g.node q).fairShare) =
        [.ofMemoryCores 5 1, .ofMemoryCores 5 1, .ofMemoryCores 10 2] ∧
      (∀ dim, Resource.exact ([2, 3, 5].map fun q => (g.node q).fairShare) dim ≤
        d.capacity.get dim) ∧
      ∀ dim, Resource.exact ([1, 5].map fun q => (h.node q).steadyShare) dim ≤
        (Resource.ofMemoryCores 30 6).get dim := by
  intro d g h
  have rooted : evenSample.IsRooted 0 := by decide +kernel
  have leaves : evenSample.leavesBelow 0 = [2, 3, 5] := by decide +kernel
  have apart : evenSample.Apart 0 [1, 5] := by decide +kernel
  have queues : evenSample.queues 0 = [0, 1, 2, 3, 4, 5] := by decide +kernel
  have policies (kind : ShareKind) (q : QueueId) (hq : q ∈ evenSample.queues 0) :
      (evenSample.node q).policy.SharesOut kind := by
    have even : (evenSample.node q).policy = evenly := by
      rw [queues] at hq
      simp only [List.mem_cons, List.not_mem_nil, or_false] at hq
      rcases hq with rfl | rfl | rfl | rfl | rfl | rfl <;>
        simp [evenSample, mixedSample, mapNodes, node]
    rw [even]
    cases kind <;> exact Policy.sharesOut_rank
  obtain ⟨apartLeaves, -, fair, steady⟩ := exact_shares_le rooted d
  rw [leaves] at apartLeaves
  refine ⟨rooted, leaves, apart, by decide +kernel, fun dim => ?_, fun dim => ?_⟩
  · exact fair (fun q hq _ => policies .fair q hq) _ apartLeaves 5 dim
  · exact steady (fun q hq _ => policies .steady q hq) _ apart _ dim

end Forest
end FairShare
