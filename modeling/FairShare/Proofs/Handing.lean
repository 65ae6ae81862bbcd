import Mathlib.Data.List.Flatten
import FairShare.Policy.Catalogue
import FairShare.Proofs.Refresh

/-!
How shares are handed down.  Once a share is split from the root down, every child has the share
that it was given when its parent split the share that the parent has, whatever the policies; and
the sinks have the shares of the queues in the order of the tree.  If the policies write shares by
names, weights and demands, a split gives the same when it is done again, so all of this stays as it
is when the same share is handed down again.
-/

namespace FairShare

/-- What a policy may split a share by. -/
def Standing.splitKey (s : Standing) : String × Float × Resource := (s.name, s.weight, s.demand)

/-- A policy that splits a share by the total and by the names, weights and demands of the siblings,
in their order. -/
def Policy.SplitsByDemand (p : Policy) (kind : ShareKind) : Prop :=
  ∀ total l m, l.map Standing.splitKey = m.map Standing.splitKey →
    p.splitOf kind total l = p.splitOf kind total m

def Standing.share (s : Standing) : ShareKind → Resource
  | .fair => s.fairShare
  | .steady => s.steadyShare

/-- A policy that writes shares by the total and by the names, weights and demands of the siblings,
in their order.  For siblings that agree in these, the share that one of them is given is the same,
unless it is left with the share that it has. -/
def Policy.WritesByDemand (p : Policy) (kind : ShareKind) : Prop :=
  ∀ total (l m : List Standing), l.map Standing.splitKey = m.map Standing.splitKey →
    ∀ (i : Nat) (s t : Standing), l[i]? = some s → m[i]? = some t →
      (p.splitOf kind total l)[i]? = (p.splitOf kind total m)[i]? ∨
        ((p.splitOf kind total l)[i]? = some (s.share kind) ∧
          (p.splitOf kind total m)[i]? = some (t.share kind))

theorem Policy.SplitsByDemand.writes {p : Policy} {kind : ShareKind} (h : p.SplitsByDemand kind) :
    p.WritesByDemand kind := fun total l m same _ _ _ _ _ => .inl (by rw [h total l m same])

namespace Policy

theorem splitByWeight_congr {l m : List Standing}
    (same : l.map Standing.splitKey = m.map Standing.splitKey) (total : Resource) :
    splitByWeight total l = splitByWeight total m := by
  have weights : l.map Standing.weight = m.map Standing.weight := by
    have := congrArg (List.map fun k : String × Float × Resource => k.2.1) same
    rwa [List.map_map, List.map_map] at this
  have split (l : List Standing) : splitByWeight total l =
      (l.map Standing.weight).map fun w =>
        if 0.0 < (l.map Standing.weight).foldl (· + ·) 0.0 then
          total.scale (w / (l.map Standing.weight).foldl (· + ·) 0.0)
        else .zero := by
    rw [splitByWeight, List.foldl_map, List.map_map]
    rfl
  rw [split, split, weights]

/-- The policies that a configuration can name split by names, weights and demands. -/
theorem splitsByDemand_of_mem_catalogue {p : Policy} (hp : p ∈ catalogue) (kind : ShareKind) :
    p.SplitsByDemand kind := by
  intro total l m same
  have length : l.length = m.length := by simpa using congrArg List.length same
  simp only [catalogue, List.mem_cons, List.not_mem_nil, or_false] at hp
  rcases hp with rfl | rfl | rfl | rfl | rfl | rfl | rfl | rfl
  · cases kind
    · exact splitByWeight_congr same total
    · exact splitByWeight_congr same total
  · cases kind <;> rfl
  · cases kind
    · show l.map (fun _ => _) = m.map (fun _ => _)
      rw [List.map_const', List.map_const', length]
    · show l.map (fun _ => _) = m.map (fun _ => _)
      rw [List.map_const', List.map_const', length]
  · cases kind <;> rfl
  · cases kind <;> rfl
  · cases kind <;> rfl
  · cases kind <;> rfl
  · cases kind
    · have demands := congrArg (List.map fun k : String × Float × Resource => k.2.2.meet total) same
      rwa [List.map_map, List.map_map] at demands
    · rfl

end Policy

def Sink.setShare (s : Sink) (share : Resource) : ShareKind → Sink
  | .fair => { s with fairShare := share }
  | .steady => { s with steadyShare := share }

theorem Sink.setShare_setShare (s : Sink) (share share' : Resource) (kind : ShareKind) :
    (s.setShare share kind).setShare share' kind = s.setShare share' kind := by
  cases kind <;> rfl

namespace Metrics

/-- Writes shares into sinks, one after the other. -/
def writeShares (kind : ShareKind) (l : List (SinkId × Resource)) (m : Metrics) : Metrics :=
  l.foldl (fun m x => m.setShare x.1 x.2 kind) m

variable {kind : ShareKind}

theorem writeShares_append (l l' : List (SinkId × Resource)) (m : Metrics) :
    writeShares kind (l ++ l') m = writeShares kind l' (writeShares kind l m) := List.foldl_append

theorem getElem?_setShare (m : Metrics) (id i : SinkId) (share : Resource) :
    (m.setShare id share kind)[i]? =
      if id = i then m[i]?.map fun s => s.setShare share kind else m[i]? := by
  cases kind <;> exact Array.getElem?_modify

/-- A sink ends up with the last share that is written into it, if any is. -/
theorem getElem?_writeShares (kind : ShareKind) (l : List (SinkId × Resource)) (i : SinkId) :
    ∃ last : Option Resource, ∀ m : Metrics, (writeShares kind l m)[i]? =
      m[i]?.map fun s => last.elim s fun share => s.setShare share kind := by
  induction l with
  | nil => exact ⟨none, fun m => (Option.map_id_fun' ▸ rfl)⟩
  | cons x l ih =>
    obtain ⟨last, hlast⟩ := ih
    have step (m : Metrics) : writeShares kind (x :: l) m =
        writeShares kind l (m.setShare x.1 x.2 kind) := rfl
    -- A share that is written first counts only if none is written after it.
    by_cases hx : x.1 = i
    · refine ⟨some (last.getD x.2), fun m => ?_⟩
      rw [step, hlast, getElem?_setShare, if_pos hx, Option.map_map]
      congr 1
      funext s
      cases last with
      | none => rfl
      | some share => exact s.setShare_setShare x.2 share kind
    · refine ⟨last, fun m => ?_⟩
      rw [step, hlast, getElem?_setShare, if_neg hx]

/-- Writing the same shares again changes nothing. -/
theorem writeShares_writeShares (l : List (SinkId × Resource)) (m : Metrics) :
    writeShares kind l (writeShares kind l m) = writeShares kind l m := by
  apply Array.ext_getElem?
  intro i
  obtain ⟨last, hlast⟩ := getElem?_writeShares kind l i
  rw [hlast, hlast, Option.map_map]
  congr 1
  funext s
  cases last with
  | none => rfl
  | some share => exact s.setShare_setShare share share kind

end Metrics

/-- The queues below that of a shape. -/
def Shape.inner (s : Shape) : List QueueId := s.subtrees.flatMap Shape.ids

theorem Shape.ids_eq_cons (s : Shape) : s.ids = s.id :: s.inner := by
  cases s with
  | node q below => exact ids_node q below

theorem Shape.inner_subset_ids (s : Shape) : s.inner ⊆ s.ids := by
  rw [s.ids_eq_cons]
  exact List.subset_cons_self _ _

theorem Shape.id_mem_inner {s t : Shape} (h : t ∈ s.subtrees) : t.id ∈ s.inner :=
  List.mem_flatMap.2 ⟨t, h, t.id_mem_ids⟩

namespace Forest
namespace Follows

variable {f : Forest} {q : QueueId} {s : Shape} {below : List Shape}

theorem id_not_mem_inner (h : f.Follows s) : s.id ∉ s.inner := by
  have distinct := h.distinct
  rw [s.ids_eq_cons] at distinct
  exact (List.nodup_cons.1 distinct).1

theorem nodup_children (h : f.Follows (.node q below)) : (below.map Shape.id).Nodup := by
  have sub : (below.map Shape.id).Sublist (below.flatMap Shape.ids) := by
    rw [← List.flatMap_singleton' (below.map Shape.id), List.flatMap_map]
    exact .flatMap_right _ fun s _ => List.singleton_sublist.2 s.id_mem_ids
  exact h.distinct_below.sublist sub

/-- No child of a queue lies below a child of it. -/
theorem child_not_mem_inner (h : f.Follows (.node q below)) {c : QueueId}
    (hc : c ∈ below.map Shape.id) (hs : s ∈ below) : c ∉ s.inner := by
  intro inside
  obtain ⟨t, ht, rfl⟩ := List.mem_map.1 hc
  obtain rfl : t = s :=
    Shape.eq_of_mem_ids h.distinct ht hs t.id_mem_ids (s.inner_subset_ids inside)
  exact (h.of_mem_below ht).id_not_mem_inner inside

end Follows

/-- The shares that the split of a queue gives its children, by the order of the shape. -/
def splitOf (kind : ShareKind) (f : Forest) (s : Shape) : List (QueueId × Resource) :=
  (s.subtrees.map Shape.id).zip
    ((f.node s.id).policy.splitOf kind ((f.node s.id).share kind) (s.subtrees.map f.standing))

/-- Every child has the share that the split of its parent gives it. -/
def Settled (kind : ShareKind) (f : Forest) (s : Shape) : Prop :=
  ∀ t ∈ s.parts, (f.node t.id).isComposite = true →
    ∀ x ∈ f.splitOf kind t, (f.node x.1).share kind = x.2

theorem child_of_mem_splitOf {kind : ShareKind} {f : Forest} {s : Shape} {x : QueueId × Resource}
    (hx : x ∈ f.splitOf kind s) : ∃ t ∈ s.subtrees, t.id = x.1 :=
  List.mem_map.1 (List.of_mem_zip hx).1

/-- The shares of queues, with the sinks that they go to. -/
def published (kind : ShareKind) (f : Forest) (l : List QueueId) : List (SinkId × Resource) :=
  l.map fun q => ((f.node q).sink, (f.node q).share kind)

/-- A shape that follows the child lists, with policies that write by names, weights and demands. -/
structure Splits (kind : ShareKind) (f : Forest) (s : Shape) : Prop where
  follows : f.Follows s
  policy : ∀ p ∈ s.ids, (f.node p).isComposite = true → (f.node p).policy.WritesByDemand kind

theorem Splits.of_mem_below {kind : ShareKind} {f : Forest} {q : QueueId} {below : List Shape}
    (splits : f.Splits kind (.node q below)) {s : Shape} (hs : s ∈ below) : f.Splits kind s where
  follows := splits.follows.of_mem_below hs
  policy p hp := splits.policy p (Shape.mem_ids_node.2 (.inr ⟨s, hs, hp⟩))

/-- Forests whose queues differ in nothing that a split looks at, but for the shares of queues that
are not listed. -/
structure SplitAlike (kind : ShareKind) (l : List QueueId) (f g : Forest) : Prop where
  allocation : g.allocation = f.allocation
  name : ∀ p, (g.node p).name = (f.node p).name
  policy : ∀ p, (g.node p).policy = (f.node p).policy
  sink : ∀ p, (g.node p).sink = (f.node p).sink
  body : ∀ p, (g.node p).body = (f.node p).body
  share : ∀ p ∈ l, (g.node p).share kind = (f.node p).share kind

/-- Every child has the share that it was given when the share that its parent has was split, by the
standings of that time. -/
def Given (kind : ShareKind) (f : Forest) (s : Shape) : Prop :=
  ∀ t ∈ s.parts, (f.node t.id).isComposite = true →
    ∃ g, SplitAlike kind [t.id] g f ∧ ∀ x ∈ g.splitOf kind t, (f.node x.1).share kind = x.2

theorem share_standing (kind : ShareKind) (f : Forest) (s : Shape) :
    (f.standing s).share kind = (f.node s.id).share kind := by
  cases s with
  | node q below => rw [standing]; cases kind <;> rfl

theorem splitKey_standing (f : Forest) (s : Shape) :
    (f.standing s).splitKey = ((f.node s.id).name, f.weight s.id, (f.node s.id).demand) := by
  cases s with
  | node q below => rw [standing]; rfl

namespace SplitAlike

variable {kind : ShareKind} {l m : List QueueId} {f g h : Forest} {s t : Shape}

theorem mono (fg : SplitAlike kind l f g) (sub : m ⊆ l) : SplitAlike kind m f g :=
  { fg with share := fun p hp => fg.share p (sub hp) }

theorem trans (fg : SplitAlike kind l f g) (gh : SplitAlike kind l g h) : SplitAlike kind l f h where
  allocation := gh.allocation.trans fg.allocation
  name p := (gh.name p).trans (fg.name p)
  policy p := (gh.policy p).trans (fg.policy p)
  sink p := (gh.sink p).trans (fg.sink p)
  body p := (gh.body p).trans (fg.body p)
  share p hp := (gh.share p hp).trans (fg.share p hp)

theorem of_unshared (h : g.unshared = f.unshared)
    (share : ∀ p ∈ l, (g.node p).share kind = (f.node p).share kind) : SplitAlike kind l f g where
  allocation := (keeps_of_unshared h).allocation
  name := (keeps_of_unshared h).name
  policy := field_of_unshared Node.policy (fun _ => rfl) h
  sink := field_of_unshared Node.sink (fun _ => rfl) h
  body := body_of_unshared h
  share := share

theorem of_unpaced (h : g.unpaced = f.unpaced) : SplitAlike kind l f g where
  allocation := (keeps_of_unpaced h).allocation
  name := (keeps_of_unpaced h).name
  policy := field_of_unpaced Node.policy (fun _ => rfl) h
  sink := field_of_unpaced Node.sink (fun _ => rfl) h
  body := body_of_unpaced h
  share p _ := field_of_unpaced (fun n => n.share kind) (by intro n; cases kind <;> rfl) h p

theorem of_nodes (allocation : g.allocation = f.allocation) (nodes : g.nodes = f.nodes) :
    SplitAlike kind l f g := by
  have node (p : QueueId) : g.node p = f.node p := by rw [node, node, nodes]
  exact ⟨allocation, fun p => by rw [node], fun p => by rw [node], fun p => by rw [node],
    fun p => by rw [node], fun p _ => by rw [node]⟩

theorem keys (fg : SplitAlike kind l f g) (s : Shape) :
    (s.subtrees.map g.standing).map Standing.splitKey =
      (s.subtrees.map f.standing).map Standing.splitKey := by
  rw [List.map_map, List.map_map]
  refine List.map_congr_left fun t _ => ?_
  show (g.standing t).splitKey = (f.standing t).splitKey
  rw [splitKey_standing, splitKey_standing, weight, weight, fg.allocation, fg.name, Node.demand,
    Node.demand, fg.body]

/-- What the split of a queue gives in the one forest it gives in the other, unless it is the share
that the child has. -/
theorem mem_splitOf (fg : SplitAlike kind [s.id] f g)
    (policy : (f.node s.id).policy.WritesByDemand kind) {x : QueueId × Resource}
    (hx : x ∈ g.splitOf kind s) : x ∈ f.splitOf kind s ∨ (g.node x.1).share kind = x.2 := by
  rw [Forest.splitOf, fg.policy, fg.share _ (by simp)] at hx
  obtain ⟨i, hi⟩ := List.mem_iff_getElem?.1 hx
  obtain ⟨child, share⟩ := List.getElem?_zip_eq_some.1 hi
  rw [List.getElem?_map] at child
  obtain ⟨t, ht, hid⟩ := Option.map_eq_some_iff.1 child
  have at_i (h : Forest) : (s.subtrees.map h.standing)[i]? = some (h.standing t) := by
    rw [List.getElem?_map, ht, Option.map_some]
  rcases policy ((f.node s.id).share kind) _ _ (fg.keys s) i _ _ (at_i g) (at_i f) with same | own
  · left
    refine List.mem_iff_getElem?.2 ⟨i, List.getElem?_zip_eq_some.2 ⟨?_, same ▸ share⟩⟩
    rw [List.getElem?_map, ht, Option.map_some, hid]
  · right
    rw [← hid, ← share_standing]
    exact Option.some.inj (own.1.symm.trans share)

theorem splits (fg : SplitAlike kind l f g) (size : g.nodes.size = f.nodes.size)
    (splits : f.Splits kind s) : g.Splits kind s where
  follows := splits.follows.congr size fun p => by rw [Node.children, fg.body, ← Node.children]
  policy p hp composite := by
    rw [Node.isComposite, fg.body, ← Node.isComposite] at composite
    rw [fg.policy]
    exact splits.policy p hp composite

theorem isComposite (fg : SplitAlike kind l f g) (p : QueueId) :
    (g.node p).isComposite = (f.node p).isComposite := by
  rw [Node.isComposite, fg.body, ← Node.isComposite]

theorem given (fg : SplitAlike kind s.ids f g) (h : f.Given kind s) : g.Given kind s := by
  intro t ht composite
  obtain ⟨before, alike, share⟩ := h t ht (fg.isComposite t.id ▸ composite)
  have part := Shape.ids_subset_of_mem_parts ht
  refine ⟨before, alike.trans (fg.mono (by simpa using part t.id_mem_ids)), fun x hx => ?_⟩
  obtain ⟨u, hu, hid⟩ := child_of_mem_splitOf hx
  rw [fg.share x.1 (part (t.inner_subset_ids (hid ▸ Shape.id_mem_inner hu)))]
  exact share x hx

theorem published (fg : SplitAlike kind l f g) : g.published kind l = f.published kind l :=
  List.map_congr_left fun p hp => by rw [fg.sink, fg.share p hp]

end SplitAlike

/-- Where policies write by demand, every child would be given the share that it has once more. -/
theorem Given.settled {kind : ShareKind} {f : Forest} {s : Shape} (given : f.Given kind s)
    (splits : f.Splits kind s) : f.Settled kind s := by
  intro t ht composite x hx
  obtain ⟨g, alike, share⟩ := given t ht composite
  have policy := splits.policy t.id (Shape.id_mem_ids_of_mem_parts ht) composite
  rw [alike.policy] at policy
  exact (alike.mem_splitOf policy hx).elim (share x) id

section giving

variable {kind : ShareKind} {f : Forest} {p : QueueId} {queues : List QueueId}
  {shares : List Resource}

theorem share_setShare_self (kind : ShareKind) (known : p < f.nodes.size) (share : Resource) :
    ((f.setShare kind p share).node p).share kind = share := by
  rw [setShare, node_update_self f _ known]
  cases kind <;> rfl

/-- A share that a queue has already changes nothing. -/
theorem setShare_of_share {share : Resource} (h : (f.node p).share kind = share) :
    f.setShare kind p share = f := by
  rw [setShare]
  refine eq_of_node rfl rfl (size_update f p _) fun q => ?_
  rw [node_update]
  split
  · next hq =>
    rw [hq.1, ← h]
    cases kind <;> rfl
  · rfl

theorem node_giveShares_of_not_mem (hp : p ∉ queues) (f : Forest) (shares : List Resource) :
    (f.giveShares kind queues shares).node p = f.node p := by
  induction queues generalizing f shares with
  | nil => rfl
  | cons q rest ih =>
    cases shares with
    | nil => rfl
    | cons share shares =>
      rw [List.mem_cons, not_or] at hp
      calc
        _ = (f.setShare kind q share).node p := ih hp.2 _ shares
        _ = f.node p := node_update_of_ne f _ hp.1

theorem metrics_giveShares (f : Forest) (queues : List QueueId) (shares : List Resource) :
    (f.giveShares kind queues shares).metrics = f.metrics := by
  induction queues generalizing f shares with
  | nil => rfl
  | cons q rest ih =>
    cases shares with
    | nil => rfl
    | cons share shares => exact ih (f.setShare kind q share) shares

/-- Distinct queues end up with the shares that they are given. -/
theorem share_giveShares (distinct : queues.Nodup) (known : ∀ q ∈ queues, q < f.nodes.size)
    {x : QueueId × Resource} (hx : x ∈ queues.zip shares) :
    ((f.giveShares kind queues shares).node x.1).share kind = x.2 := by
  induction queues generalizing f shares with
  | nil => cases hx
  | cons q rest ih =>
    cases shares with
    | nil => cases hx
    | cons share shares =>
      obtain ⟨hq, distinct⟩ := List.nodup_cons.1 distinct
      have known' (p : QueueId) (hp : p ∈ rest) : p < (f.setShare kind q share).nodes.size := by
        rw [setShare, size_update]
        exact known p (List.mem_cons_of_mem q hp)
      rcases List.mem_cons.1 hx with rfl | hx
      · have kept : ((f.setShare kind q share).giveShares kind rest shares).node q =
            (f.setShare kind q share).node q := node_giveShares_of_not_mem hq _ shares
        exact (congrArg (fun n => n.share kind) kept).trans
          (share_setShare_self kind (known q (by simp)) share)
      · exact ih distinct known' hx

theorem giveShares_of_share
    (same : ∀ x ∈ queues.zip shares, (f.node x.1).share kind = x.2) :
    f.giveShares kind queues shares = f := by
  induction queues generalizing shares with
  | nil => rfl
  | cons q rest ih =>
    cases shares with
    | nil => rfl
    | cons share shares =>
      have first : f.setShare kind q share = f := setShare_of_share (same (q, share) (by simp))
      have rest := ih fun x hx => same x (List.mem_cons_of_mem _ hx)
      calc
        f.giveShares kind (q :: _) (share :: shares) =
            (f.setShare kind q share).giveShares kind _ shares := rfl
        _ = f := by rw [first, rest]

end giving

/-- What it does to hand a share down from the queue of a shape: the queue itself and those outside
stay as they are, those below have what they are given, and the sinks have it in the order of the
shape. -/
structure Hands (kind : ShareKind) (s : Shape) (f g : Forest) : Prop where
  left : ∀ p, p ∉ s.inner → g.node p = f.node p
  given : g.Given kind s
  metrics : g.metrics = Metrics.writeShares kind (g.published kind s.inner) f.metrics

/-- What it does to publish the shares of siblings and to hand each of them down. -/
structure HandsAll (kind : ShareKind) (below : List Shape) (f g : Forest) : Prop where
  left : ∀ p, (∀ s ∈ below, p ∉ s.inner) → g.node p = f.node p
  given : ∀ s ∈ below, g.Given kind s
  metrics : g.metrics =
    Metrics.writeShares kind (g.published kind (below.flatMap Shape.ids)) f.metrics

section handing

variable {kind : ShareKind} {b f g : Forest} {s : Shape} {below : List Shape}

theorem HandsAll.nil (kind : ShareKind) (f : Forest) : HandsAll kind [] f f where
  left _ _ := rfl
  given s hs := by cases hs
  metrics := rfl

theorem Follows.of_unshared (follows : b.Follows s) (same : f.unshared = b.unshared) :
    f.Follows s :=
  follows.congr (keeps_of_unshared same).size (field_of_unshared Node.children (fun _ => rfl) same)

theorem Splits.of_unshared (splits : b.Splits kind s) (same : f.unshared = b.unshared) :
    f.Splits kind s := by
  have alike : SplitAlike kind [] b f := .of_unshared same fun p hp => by cases hp
  exact alike.splits (keeps_of_unshared same).size splits

/-- The first sibling is published and handed down, then the others. -/
theorem HandsAll.cons {h : Forest} (follows : g.Follows s)
    (apart : ∀ t ∈ below, ∀ p ∈ t.ids, p ∉ s.ids) (same : h.unshared = g.unshared)
    (first : Hands kind s (f.publish kind s.id) g) (later : HandsAll kind below g h) :
    HandsAll kind (s :: below) f h := by
  -- The siblings that follow share no queue with the first, so what was given there stays.
  have unchanged (p : QueueId) (hp : p ∈ s.ids) : h.node p = g.node p :=
    later.left p fun t ht inside => apart t ht p (t.inner_subset_ids inside) hp
  refine ⟨fun p hp => ?_, fun t ht => ?_, ?_⟩
  · rw [List.forall_mem_cons] at hp
    calc
      h.node p = g.node p := later.left p hp.2
      _ = f.node p := first.left p hp.1
  · rcases List.mem_cons.1 ht with rfl | ht
    · have alike : SplitAlike kind t.ids g h :=
        .of_unshared same fun p hp => by rw [unchanged p hp]
      exact alike.given first.given
    · exact later.given t ht
  · have own : h.node s.id = f.node s.id := by
      rw [unchanged _ s.id_mem_ids]
      exact first.left s.id follows.id_not_mem_inner
    have inner : g.published kind s.inner = h.published kind s.inner :=
      List.map_congr_left fun p hp => by rw [unchanged p (s.inner_subset_ids hp)]
    have self : (f.publish kind s.id).metrics =
        Metrics.writeShares kind (h.published kind [s.id]) f.metrics := by
      rw [published, List.map_singleton, own]
      rfl
    calc
      h.metrics = Metrics.writeShares kind (h.published kind (below.flatMap Shape.ids))
          (Metrics.writeShares kind (h.published kind s.inner)
            (Metrics.writeShares kind (h.published kind [s.id]) f.metrics)) := by
        rw [later.metrics, first.metrics, inner, self]
      _ = Metrics.writeShares kind (h.published kind ((s :: below).flatMap Shape.ids))
          f.metrics := by
        rw [← Metrics.writeShares_append, ← Metrics.writeShares_append, List.flatMap_cons,
          s.ids_eq_cons]
        simp only [published, List.map_append, List.map_cons, List.map_nil, List.cons_append,
          List.nil_append]

theorem handsAll_publishAll
    (each : ∀ s ∈ below, ∀ f, f.unshared = b.unshared → Hands kind s f (splitShares kind s f))
    (follows : ∀ s ∈ below, b.Follows s) (distinct : (below.flatMap Shape.ids).Nodup)
    (same : f.unshared = b.unshared) : HandsAll kind below f (publishAll kind below f) := by
  induction below generalizing f with
  | nil => exact .nil kind f
  | cons s rest ih =>
    rw [List.flatMap_cons, List.nodup_append] at distinct
    have apart (t : Shape) (ht : t ∈ rest) (p : QueueId) (hp : p ∈ t.ids) : p ∉ s.ids := fun h =>
      distinct.2.2 p h p (List.mem_flatMap.2 ⟨t, ht, hp⟩) rfl
    have first := each s (by simp) (f.publish kind s.id) same
    have sameFirst := (unshared_splitShares kind s (f.publish kind s.id)).trans same
    rw [publishAll]
    generalize splitShares kind s (f.publish kind s.id) = g at first sameFirst
    have later := ih (fun t ht => each t (List.mem_cons_of_mem s ht))
      (fun t ht => follows t (List.mem_cons_of_mem s ht)) distinct.2.1 sameFirst
    have sameLater : (publishAll kind rest g).unshared = g.unshared :=
      unshared_publishAll kind rest g
    exact .cons ((follows s (by simp)).of_unshared sameFirst) apart sameLater first later

/-- A queue splits its share among its children, which hand their shares down. -/
theorem Hands.of_children {q : QueueId} (follows : f.Follows (.node q below))
    (same : g.unshared = f.unshared)
    (all : HandsAll kind below (f.giveShares kind (below.map Shape.id)
      ((f.node q).policy.splitOf kind ((f.node q).share kind) (below.map f.standing))) g) :
    Hands kind (.node q below) f g := by
  have known (p : QueueId) (hp : p ∈ below.map Shape.id) : p < f.nodes.size := by
    obtain ⟨s, hs, rfl⟩ := List.mem_map.1 hp
    exact follows.known _ (Shape.mem_ids_node.2 (.inr ⟨s, hs, s.id_mem_ids⟩))
  have left (p : QueueId) (hp : p ∉ (Shape.node q below).inner) : g.node p = f.node p := by
    have apart (s : Shape) (hs : s ∈ below) : p ∉ s.ids := fun inside =>
      hp (List.mem_flatMap.2 ⟨s, hs, inside⟩)
    have no_child : p ∉ below.map Shape.id := fun child => by
      obtain ⟨s, hs, rfl⟩ := List.mem_map.1 child
      exact apart s hs s.id_mem_ids
    rw [all.left p fun s hs inside => apart s hs (s.inner_subset_ids inside),
      node_giveShares_of_not_mem no_child]
  refine ⟨left, fun t ht composite => ?_, ?_⟩
  · rcases Shape.mem_parts_node.1 ht with rfl | ⟨s, hs, ht⟩
    · -- The queue has the share still that it split, and a child the share that it was given.
      have own : g.node q = f.node q := left q follows.id_not_mem_inner
      refine ⟨f, .of_unshared same fun p hp => ?_, fun x hx => ?_⟩
      · rw [List.mem_singleton.1 hp, Shape.id_node, own]
      · have child : x.1 ∈ below.map Shape.id := (List.of_mem_zip hx).1
        rw [all.left x.1 fun s hs => follows.child_not_mem_inner child hs]
        exact share_giveShares follows.nodup_children known hx
    · exact all.given s hs t ht composite
  · rw [all.metrics, metrics_giveShares]
    rfl

/-- Splitting the share of a queue hands it down. -/
theorem hands_splitShares (follows : f.Follows s) : Hands kind s f (splitShares kind s f) := by
  induction s generalizing f with
  | node q below ih =>
    cases composite : (f.node q).isComposite with
    | false =>
      have childless : below = [] := by
        refine follows.below_eq_nil fun c hc => ?_
        rw [Node.isComposite, hc] at composite
        cases composite
      subst childless
      rw [splitShares, composite]
      refine ⟨fun _ _ => rfl, fun t ht ht' => ?_, rfl⟩
      obtain rfl : t = .node q [] := by simpa [Shape.parts_node] using ht
      rw [Shape.id_node, if_neg (by simp), composite] at ht'
      cases ht'
    | true =>
      have same := unshared_splitShares kind (.node q below) f
      rw [splitShares, composite, if_pos rfl] at same ⊢
      apply Hands.of_children follows same
      apply handsAll_publishAll (b := f) _ (fun s hs => follows.of_mem_below hs)
        follows.distinct_below (unshared_giveShares kind f _ _)
      intro s hs g same
      exact ih s hs ((follows.of_mem_below hs).of_unshared same)

theorem nodes_publishAll
    (each : ∀ s ∈ below, ∀ f, f.allocation = b.allocation → f.nodes = b.nodes →
      (splitShares kind s f).nodes = f.nodes)
    (allocation : f.allocation = b.allocation) (nodes : f.nodes = b.nodes) :
    (publishAll kind below f).nodes = f.nodes := by
  induction below generalizing f with
  | nil => rfl
  | cons s rest ih =>
    have first : (splitShares kind s (f.publish kind s.id)).nodes = f.nodes :=
      each s (by simp) (f.publish kind s.id) allocation nodes
    have kept := keeps_of_unshared (unshared_splitShares kind s (f.publish kind s.id))
    have later := ih (fun t ht => each t (List.mem_cons_of_mem s ht))
      (kept.allocation.trans allocation) (first.trans nodes)
    exact later.trans first

/-- Where the shares were handed down, splitting them again leaves all queues as they are. -/
theorem nodes_splitShares (splits : f.Splits kind s) (given : f.Given kind s) :
    (splitShares kind s f).nodes = f.nodes := by
  induction s generalizing f with
  | node q below ih =>
    rw [splitShares]
    dsimp only
    cases composite : (f.node q).isComposite with
    | false => rfl
    | true =>
      -- The children have their shares already; the sinks that are written to are no queues.
      have settled := given.settled splits
      have same := giveShares_of_share (settled _ (Shape.self_mem_parts _) composite)
      dsimp only [Shape.subtrees_node, Shape.id_node] at same
      rw [if_pos rfl, same]
      apply nodes_publishAll (b := f) _ rfl rfl
      intro s hs g allocation nodes
      have alike (l : List QueueId) : SplitAlike kind l f g := .of_nodes allocation nodes
      have splits' := splits.of_mem_below hs
      apply ih s hs ((alike s.ids).splits (by rw [nodes]) splits')
      apply (alike s.ids).given
      exact fun t ht => given t (Shape.mem_parts_node.2 (.inr ⟨s, hs, ht⟩))

end handing

/-- A forest in which a share was handed down from a queue, the sinks having been others before. -/
structure Distributed (kind : ShareKind) (root : QueueId) (capacity : Resource) (before : Metrics)
    (f : Forest) : Prop where
  share : (f.node root).share kind = capacity
  given : f.Given kind (f.shape root)
  metrics : f.metrics = Metrics.writeShares kind (f.published kind (f.queues root)) before

section distributing

variable {kind : ShareKind} {f g : Forest} {root : QueueId} {capacity : Resource}
  {before : Metrics}

theorem queues_eq_cons (f : Forest) (q : QueueId) : f.queues q = q :: (f.shape q).inner := by
  rw [queues_eq_ids, Shape.ids_eq_cons, id_shape]

theorem published_cons (f : Forest) (q : QueueId) (l : List QueueId) (m : Metrics) :
    Metrics.writeShares kind (f.published kind (q :: l)) m =
      Metrics.writeShares kind (f.published kind l)
        (m.setShare (f.node q).sink ((f.node q).share kind) kind) := rfl

theorem distributed_distribute (follows : f.Follows (f.shape root)) (capacity : Resource) :
    Distributed kind root capacity f.metrics (f.distribute kind root capacity) := by
  have start : ((f.setShare kind root capacity).publish kind root).unshared = f.unshared :=
    unshared_setShare kind f root capacity
  have shape := shape_of_unshared start root
  have known : root < f.nodes.size :=
    follows.known root (f.queues_eq_ids root ▸ f.mem_queues_self root)
  have share := share_setShare_self kind known capacity
  have outside : root ∉ (f.shape root).inner := by
    have := follows.id_not_mem_inner
    rwa [id_shape] at this
  have shape' := shape_of_unshared (unshared_distribute kind f root capacity) root
  have hands : Hands kind (f.shape root) ((f.setShare kind root capacity).publish kind root)
      (f.distribute kind root capacity) := by
    rw [distribute, recomputeShares, shape]
    exact hands_splitShares (follows.of_unshared start)
  generalize f.distribute kind root capacity = g at hands shape'
  -- The root has its share before anything is split, and nothing below it changes that.
  have own : g.node root = (f.setShare kind root capacity).node root :=
    hands.left root outside
  refine ⟨by rw [own, share], by rw [shape']; exact hands.given, ?_⟩
  rw [queues_eq_cons, shape', published_cons, own]
  exact hands.metrics

/-- Times that are recorded leave the shares as they were handed down. -/
theorem Distributed.of_unpaced (distributed : Distributed kind root capacity before f)
    (h : g.unpaced = f.unpaced) : Distributed kind root capacity before g := by
  have alike (l : List QueueId) : SplitAlike kind l f g := .of_unpaced h
  have shape := shape_of_unpaced h root
  have metrics : g.unpaced.metrics = f.unpaced.metrics := by rw [h]
  refine ⟨?_, ?_, ?_⟩
  · rw [(alike [root]).share root (by simp)]
    exact distributed.share
  · rw [shape]
    exact (alike _).given distributed.given
  · have queues : g.queues root = f.queues root := by rw [queues_eq_ids, queues_eq_ids, shape]
    rw [queues, (alike _).published]
    exact metrics.trans distributed.metrics

/-- The same share handed down again changes nothing. -/
theorem Distributed.distribute_eq (distributed : Distributed kind root capacity before f)
    (splits : f.Splits kind (f.shape root)) : f.distribute kind root capacity = f := by
  have given : f.setShare kind root capacity = f := setShare_of_share distributed.share
  have alike (l : List QueueId) : SplitAlike kind l f (f.publish kind root) := .of_nodes rfl rfl
  have shape : (f.publish kind root).shape root = f.shape root :=
    shape_congr (f := f) (g := f.publish kind root) rfl (fun _ => rfl) root
  have splits' := (alike (f.shape root).ids).splits rfl splits
  have given' := (alike (f.shape root).ids).given distributed.given
  rw [distribute, given, recomputeShares, shape]
  have hands : Hands kind (f.shape root) (f.publish kind root) _ := hands_splitShares splits'.follows
  have nodes := nodes_splitShares splits' given'
  have kept := keeps_of_unshared (unshared_splitShares kind (f.shape root) (f.publish kind root))
  generalize splitShares kind (f.shape root) (f.publish kind root) = g at hands nodes kept ⊢
  have node (q : QueueId) : g.node q = f.node q := by rw [Forest.node, nodes]; rfl
  have same : g.published kind (f.shape root).inner = f.published kind (f.shape root).inner :=
    List.map_congr_left fun q _ => by rw [node]
  refine eq_of_node kept.allocation ?_ kept.size node
  -- The sinks are written in the same order as before, and the last share in each is the same.
  calc
    g.metrics = Metrics.writeShares kind (f.published kind (f.shape root).inner)
        (f.publish kind root).metrics := by rw [hands.metrics, same]
    _ = Metrics.writeShares kind (f.published kind (f.queues root)) f.metrics := by
      rw [queues_eq_cons, published_cons]
      rfl
    _ = f.metrics := by
      rw [distributed.metrics, Metrics.writeShares_writeShares]

end distributing

end Forest
end FairShare
