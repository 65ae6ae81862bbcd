import FairShare.Policy.Catalogue
import FairShare.Proofs.Cut
import FairShare.Proofs.Refresh

/-!
How demand is counted.  A count goes over the children of a queue in turn until their demands are
at the cap of the queue, and leaves those that follow as they are.  Each child that is counted ends
up as if it were counted alone; so every composite queue that is refreshed demands what its
children demand after the count, summed once and cut once.
-/

namespace FairShare
namespace Forest

open Resource (sum)

theorem countChildren_total {below : List Shape} (distinct : (below.flatMap Shape.ids).Nodup)
    (cap : Option Resource) (f : Forest) (before : List Resource) (pinned : Bool) :
    (countChildren cap below f (cut cap (sum before)) pinned).2 =
      cut cap (sum (before ++
        below.map (countChildren cap below f (cut cap (sum before)) pinned).1.demandAt)) := by
  induction below generalizing f before pinned with
  | nil => simp [countChildren]
  | cons s rest ih =>
    rw [List.flatMap_cons, List.nodup_append] at distinct
    rw [countChildren]
    generalize (if pinned then f else countDemand s f) = g
    -- The running total is the total of the children so far, cut once.
    rw [cut_cut_add, ← Resource.sum_concat]
    have later := ih distinct.2.1 g (before ++ [(g.node s.id).demand])
      (pinned || isPinned cap (cut cap (sum (before ++ [(g.node s.id).demand]))))
    have unchanged (total : Resource) (pinned : Bool) :
        (countChildren cap rest g total pinned).1.demandAt s = (g.node s.id).demand := by
      rw [demandAt, node_countChildren_of_not_mem]
      · exact fun s _ f h => node_countDemand_of_not_mem h f
      · intro t ht hs
        exact distinct.2.2 _ s.id_mem_ids _ (List.mem_flatMap.2 ⟨t, ht, hs⟩) rfl
    rw [List.map_cons, unchanged, later, List.append_assoc, List.singleton_append]

/-- How a count goes over the children of a queue, from a total on: the front is counted, each child
as if it were alone, until the total is at the cap, and the back is left. -/
structure Stops (f g : Forest) (cap : Option Resource) (before : List Resource)
    (front back : List Shape) : Prop where
  counted : ∀ s ∈ front, AgreeOn s.ids (countDemand s f) g
  left : ∀ p, (∀ s ∈ front, p ∉ s.ids) → g.node p = f.node p
  opened : ∀ a s b, front = a ++ s :: b →
    isPinned cap (cut cap (sum (before ++ a.map g.demandAt))) = false
  closed : back ≠ [] → isPinned cap (cut cap (sum (before ++ front.map g.demandAt))) = true

theorem refreshedAmong_pinned (cap : Option Resource) (below : List Shape) (f : Forest)
    (total : Resource) : refreshedAmong cap below f total true = [] := by
  cases below <;> rfl

theorem countChildren_pinned (cap : Option Resource) (below : List Shape) (f : Forest)
    (total : Resource) : (countChildren cap below f total true).1 = f := by
  induction below generalizing total with
  | nil => rfl
  | cons s rest ih => exact ih _

theorem keeps_countChildren (cap : Option Resource) (below : List Shape) (f : Forest)
    (total : Resource) (pinned : Bool) : Keeps f (countChildren cap below f total pinned).1 :=
  keeps_of_uncounted
    (uncounted_countChildren (fun s _ => uncounted_countDemand s) cap f total pinned)

theorem agreeOn_countDemand_of_disjoint {s t : Shape} (apart : ∀ p ∈ t.ids, p ∉ s.ids)
    (f : Forest) : AgreeOn t.ids f (countDemand s f) :=
  .of_keeps (keeps_countDemand s f) fun p hp => by
    rw [node_countDemand_of_not_mem (apart p hp)]

namespace Stops

variable {f g : Forest} {cap : Option Resource} {before : List Resource} {s : Shape}
  {front back : List Shape}

theorem nil (f : Forest) (cap : Option Resource) (before : List Resource) :
    Stops f f cap before [] [] where
  counted s hs := by cases hs
  left _ _ := rfl
  opened a s b h := by cases a <;> cases h
  closed h := absurd rfl h

/-- The first child brings the total to the cap. -/
theorem first (opened : isPinned cap (cut cap (sum before)) = false)
    (closed : isPinned cap (cut cap (sum (before ++ [(countDemand s f).demandAt s]))) = true) :
    Stops f (countDemand s f) cap before [s] back where
  counted t ht := by
    obtain rfl := List.mem_singleton.1 ht
    exact .refl _ _
  left p hp := node_countDemand_of_not_mem (hp s (by simp)) f
  opened a t b h := by
    obtain rfl : a = [] := by
      cases a with
      | nil => rfl
      | cons x a => simp at h
    rw [List.map_nil, List.append_nil, opened]
  closed _ := closed

/-- The first child leaves room, and the count goes on from there. -/
theorem cons (apart : ∀ t ∈ front, ∀ p ∈ t.ids, p ∉ s.ids)
    (opened : isPinned cap (cut cap (sum before)) = false)
    (keeps : Keeps (countDemand s f) g)
    (rest : Stops (countDemand s f) g cap (before ++ [(countDemand s f).demandAt s]) front back) :
    Stops f g cap before (s :: front) back := by
  have unchanged (p : QueueId) (hp : p ∈ s.ids) : g.node p = (countDemand s f).node p :=
    rest.left p fun t ht h => apart t ht p h hp
  have demand : g.demandAt s = (countDemand s f).demandAt s := by
    rw [demandAt, demandAt, unchanged _ s.id_mem_ids]
  refine ⟨?_, ?_, ?_, ?_⟩
  · rw [List.forall_mem_cons]
    refine ⟨.of_keeps keeps fun p hp => by rw [unchanged p hp], fun t ht => ?_⟩
    -- Counting the first child changed nothing below the others.
    have before := agreeOn_countDemand_of_disjoint (apart t ht) f
    exact (before.countDemand (List.Subset.refl _)).1.trans (rest.counted t ht)
  · intro p hp
    rw [List.forall_mem_cons] at hp
    rw [rest.left p hp.2, node_countDemand_of_not_mem hp.1]
  · intro a t b h
    cases a with
    | nil => rw [List.map_nil, List.append_nil, opened]
    | cons x a =>
      obtain ⟨rfl, tails⟩ := List.cons.inj h
      have := rest.opened a t b tails
      rwa [List.append_assoc, List.singleton_append, ← demand] at this
  · intro h
    have := rest.closed h
    rwa [List.append_assoc, List.singleton_append, ← demand] at this

end Stops

theorem countChildren_stops {below : List Shape} (distinct : (below.flatMap Shape.ids).Nodup)
    {cap : Option Resource} {before : List Resource}
    (opened : isPinned cap (cut cap (sum before)) = false) (f : Forest) :
    ∃ front back, below = front ++ back ∧
      Stops f (countChildren cap below f (cut cap (sum before)) false).1 cap before front back ∧
      refreshedAmong cap below f (cut cap (sum before)) false =
        front.flatMap fun s => refreshed s f := by
  induction below generalizing f before with
  | nil => exact ⟨[], [], rfl, .nil f cap before, rfl⟩
  | cons s rest ih =>
    rw [List.flatMap_cons, List.nodup_append] at distinct
    have apart (t : Shape) (ht : t ∈ rest) (p : QueueId) (hp : p ∈ t.ids) : p ∉ s.ids := fun h =>
      distinct.2.2 p h p (List.mem_flatMap.2 ⟨t, ht, hp⟩) rfl
    simp only [countChildren, refreshedAmong, Bool.false_eq_true, if_false, Bool.false_or,
      cut_cut_add, ← Resource.sum_concat]
    cases closed : isPinned cap (cut cap (sum (before ++ [(countDemand s f).demandAt s]))) with
    | true =>
      rw [demandAt] at closed
      rw [closed, countChildren_pinned, refreshedAmong_pinned, List.append_nil]
      exact ⟨[s], rest, rfl, .first opened closed, by simp⟩
    | false =>
      have closed' := closed
      rw [demandAt] at closed'
      obtain ⟨front, back, rfl, stops, names⟩ := ih distinct.2.1 closed (countDemand s f)
      rw [demandAt] at stops names
      rw [closed', names]
      have apart' (t : Shape) (ht : t ∈ front) := apart t (List.mem_append_left _ ht)
      refine ⟨s :: front, back, rfl, .cons apart' opened (keeps_countChildren ..) stops, ?_⟩
      rw [List.flatMap_cons]
      congr 1
      refine List.flatMap_congr fun t ht => ?_
      have agree := agreeOn_countDemand_of_disjoint (apart' t ht) f
      exact (agree.countDemand (List.Subset.refl _)).2

/-- How a composite queue is counted: the children in front as if each were alone, until their
demands are at its cap; its own demand is that of all children, summed once and cut once. -/
structure Counts (f g : Forest) (q : QueueId) (c : Composite) (front back : List Shape) : Prop where
  counted : ∀ s ∈ front, AgreeOn s.ids (countDemand s f) g
  left : ∀ p, p ≠ q → (∀ s ∈ front, p ∉ s.ids) → g.node p = f.node p
  body : (g.node q).body = .composite
    { c with demand := cut (f.maxShare q) (sum ((front ++ back).map g.demandAt)) }
  opened : ∀ a s b, front = a ++ s :: b →
    isPinned (f.maxShare q) (cut (f.maxShare q) (sum (a.map g.demandAt))) = false
  closed : back ≠ [] →
    isPinned (f.maxShare q) (cut (f.maxShare q) (sum (front.map g.demandAt))) = true

/-- What a queue is due to demand, by what it holds and what its children demand. -/
def due (f : Forest) (q : QueueId) : Resource :=
  match (f.node q).body with
  | .composite c => cut (f.maxShare q) (sum (c.children.map fun p => (f.node p).demand))
  | .leaf l => cut (f.maxShare q) l.want
  | .scripted s => s.demand

section

variable {f g : Forest} {p q : QueueId} {s : Shape} {below : List Shape}

theorem Stops.counts {front back : List Shape} (stops : Stops f g (f.maxShare q) [] front back)
    (hq : ∀ s ∈ front ++ back, q ∉ s.ids) (known : q < g.nodes.size) {c : Composite}
    (hb : (f.node q).body = .composite c) :
    Counts f (g.updateComposite q fun c =>
      { c with demand := cut (f.maxShare q) (sum ((front ++ back).map g.demandAt)) }) q c front
        back := by
  have own : g.node q = f.node q := stops.left q fun s hs => hq s (List.mem_append_left _ hs)
  have body : ((g.updateComposite q fun c =>
      { c with demand := cut (f.maxShare q) (sum ((front ++ back).map g.demandAt)) }).node q).body =
        .composite
          { c with demand := cut (f.maxShare q) (sum ((front ++ back).map g.demandAt)) } := by
    rw [updateComposite, node_update_self g _ known, own, Node.mapComposite, hb]
  have other (p : QueueId) (hp : p ≠ q) := node_update_of_ne g (Node.mapComposite fun c =>
    { c with demand := cut (f.maxShare q) (sum ((front ++ back).map g.demandAt)) }) hp
  have keeps := Keeps.updateComposite g q (k := fun c =>
    { c with demand := cut (f.maxShare q) (sum ((front ++ back).map g.demandAt)) }) fun _ => rfl
  rw [← updateComposite] at other
  generalize g.updateComposite q _ = g' at body other keeps ⊢
  have same (l : List Shape) (hl : ∀ s ∈ l, s ∈ front ++ back) :
      l.map g'.demandAt = l.map g.demandAt := by
    refine List.map_congr_left fun s hs => ?_
    have : s.id ≠ q := fun e => hq s (hl s hs) (e ▸ s.id_mem_ids)
    rw [demandAt, demandAt, other _ this]
  refine ⟨fun s hs => (stops.counted s hs).trans ?_, fun p hp hfront => ?_, ?_, fun a s b e => ?_,
    fun h => ?_⟩
  · refine .of_keeps keeps fun p hp => ?_
    rw [other p fun e => hq s (List.mem_append_left _ hs) (e ▸ hp)]
  · rw [other p hp, stops.left p hfront]
  · rw [body, same _ fun _ => id]
  · rw [same a fun s hs => by simp [e, hs]]
    exact stops.opened a s b e
  · rw [same front fun s => List.mem_append_left _]
    exact stops.closed h

theorem counts_of_composite (h : f.Follows (.node q below)) {c : Composite}
    (hb : (f.node q).body = .composite c) :
    ∃ front back, below = front ++ back ∧
      Counts f (countDemand (.node q below) f) q c front back ∧
      refreshed (.node q below) f = q :: front.flatMap fun s => refreshed s f := by
  have start : cut (f.maxShare q) (sum []) = .zero := cut_zero _
  have opened : isPinned (f.maxShare q) (cut (f.maxShare q) (sum [])) = false := by
    rw [start, isPinned_zero]
  obtain ⟨front, back, rfl, stops, names⟩ := countChildren_stops h.distinct_below opened f
  have total := countChildren_total h.distinct_below (f.maxShare q) f [] false
  have kept := keeps_countChildren (f.maxShare q) (front ++ back) f .zero false
  rw [start] at stops names total
  have known := h.known q (Shape.id_mem_ids _)
  rw [← kept.size] at known
  rw [countDemand, refreshed, hb]
  simp only [total, names, List.nil_append]
  exact ⟨front, back, rfl, stops.counts (fun s => h.not_mem_below) known hb, rfl⟩

/-- The children in the back keep the demands that they had. -/
theorem Counts.demandAt_back {front back : List Shape} {c : Composite}
    (counts : Counts f g q c front back) (h : f.Follows (.node q (front ++ back)))
    (hs : s ∈ back) : g.demandAt s = f.demandAt s := by
  have other : s.id ≠ q := fun e =>
    h.not_mem_below (List.mem_append_right front hs) (e ▸ s.id_mem_ids)
  have distinct := h.distinct_below
  rw [List.flatMap_append, List.nodup_append] at distinct
  have outside (t : Shape) (ht : t ∈ front) : s.id ∉ t.ids := fun inside =>
    distinct.2.2 _ (List.mem_flatMap.2 ⟨t, ht, inside⟩) _
      (List.mem_flatMap.2 ⟨s, hs, s.id_mem_ids⟩) rfl
  rw [demandAt, demandAt, counts.left s.id other outside]

theorem node_countDemand_of_leaf (below : List Shape) (known : q < f.nodes.size) {l : Leaf}
    (hb : (f.node q).body = .leaf l) :
    (countDemand (.node q below) f).node q =
      { f.node q with body := .leaf { l with demand := cut (f.maxShare q) l.want } } := by
  rw [countDemand, hb]
  dsimp only
  rw [node_update_self f _ known, Node.mapLeaf, hb]

theorem node_countDemand_of_scripted (below : List Shape) (known : q < f.nodes.size) {r : Scripted}
    (hb : (f.node q).body = .scripted r) :
    (countDemand (.node q below) f).node q =
      { f.node q with body := .scripted { r with demandUpdates := r.demandUpdates + 1 } } := by
  rw [countDemand, hb]
  dsimp only
  rw [node_update_self f _ known, Node.mapScripted, hb]

theorem AgreeOn.due {l : List QueueId} (fg : AgreeOn l f g) (hp : p ∈ l)
    (children : ∀ c ∈ (f.node p).children, c ∈ l) : g.due p = f.due p := by
  rw [Forest.due, Forest.due, fg.body p hp, fg.maxShare hp]
  cases hb : (f.node p).body with
  | composite c =>
    have members : ∀ r ∈ c.children, r ∈ l := by simpa [Node.children, hb] using children
    have same : c.children.map (fun r => (g.node r).demand) =
        c.children.map fun r => (f.node r).demand :=
      List.map_congr_left fun r hr => fg.demand (members r hr)
    simp only [same]
  | leaf l => rfl
  | scripted s => rfl

theorem children_countDemand (s : Shape) (f : Forest) (p : QueueId) :
    ((countDemand s f).node p).children = (f.node p).children :=
  field_of_uncounted Node.children Node.uncounted_children (uncounted_countDemand s f) p

/-- Every queue that a count refreshes demands what it is due to. -/
theorem demand_of_refreshed (h : f.Follows s) (hp : p ∈ refreshed s f) :
    ((countDemand s f).node p).demand = (countDemand s f).due p := by
  induction s generalizing f with
  | node q below ih =>
    have cap (q : QueueId) := (keeps_countDemand (.node q below) f).toAlike.maxShare q
    cases hb : (f.node q).body with
    | composite c =>
      obtain ⟨front, back, rfl, counts, names⟩ := counts_of_composite h hb
      rw [names] at hp
      rcases List.mem_cons.1 hp with rfl | hp
      · have children : c.children = (front ++ back).map Shape.id := by
          rw [← h.children, Node.children, hb]
        rw [Node.demand, due, counts.body]
        simp only [children, cap, List.map_map]
        rfl
      · obtain ⟨s, hs, hp⟩ := List.mem_flatMap.1 hp
        have hbelow := h.of_mem_below (List.mem_append_left back hs)
        have agree := counts.counted s hs
        have inside := refreshed_subset hp
        -- What the queue and its children demand was settled when their subtree was counted.
        have settled := ih s (List.mem_append_left back hs) hbelow hp
        rw [agree.demand inside, settled, agree.due inside]
        intro r hr
        rw [children_countDemand] at hr
        exact hbelow.children_mem inside hr
    | leaf l =>
      rw [refreshed, hb] at hp
      obtain rfl := List.mem_singleton.1 hp
      have node := node_countDemand_of_leaf below (h.known p (Shape.id_mem_ids _)) hb
      simp only [Node.demand, due, cap, node]
      rfl
    | scripted r =>
      rw [refreshed, hb] at hp
      obtain rfl := List.mem_singleton.1 hp
      have node := node_countDemand_of_scripted below (h.known p (Shape.id_mem_ids _)) hb
      simp only [Node.demand, due, node]

/-- Every queue that a count does not refresh is left as it was. -/
theorem node_of_not_refreshed (h : f.Follows s) (hp : p ∉ refreshed s f) :
    (countDemand s f).node p = f.node p := by
  induction s generalizing f with
  | node q below ih =>
    cases hb : (f.node q).body with
    | composite c =>
      obtain ⟨front, back, rfl, counts, names⟩ := counts_of_composite h hb
      rw [names, List.mem_cons, not_or] at hp
      by_cases hfront : ∃ s ∈ front, p ∈ s.ids
      · obtain ⟨s, hs, inside⟩ := hfront
        have hs' : s ∈ front ++ back := List.mem_append_left back hs
        have left := ih s hs' (h.of_mem_below hs') fun hp' => hp.2 (List.mem_flatMap.2 ⟨s, hs, hp'⟩)
        apply Node.eq_of_uncounted (node_of_uncounted (uncounted_countDemand _ f) p)
        rw [(counts.counted s hs).body p inside, left]
      · exact counts.left p hp.1 fun s hs inside => hfront ⟨s, hs, inside⟩
    | leaf l =>
      rw [refreshed, hb, List.mem_singleton] at hp
      rw [countDemand, hb]
      exact node_update_of_ne f _ hp
    | scripted r =>
      rw [refreshed, hb, List.mem_singleton] at hp
      rw [countDemand, hb]
      exact node_update_of_ne f _ hp

/-- A queue that a count does not refresh lies below a queue that demands its cap. -/
theorem isPinned_of_not_refreshed (h : f.Follows s) (hp : p ∈ s.ids) (left : p ∉ refreshed s f) :
    ∃ t ∈ s.parts, t.id ≠ p ∧ p ∈ t.ids ∧
      isPinned (f.maxShare t.id) ((countDemand s f).demandAt t) = true := by
  induction s generalizing f with
  | node q below ih =>
    have childless (hb : ∀ c, (f.node q).body ≠ .composite c) : p = q := by
      rcases Shape.mem_ids_node.1 hp with e | ⟨s, hs, -⟩
      · exact e
      · rw [h.below_eq_nil hb] at hs
        cases hs
    cases hb : (f.node q).body with
    | composite c =>
      obtain ⟨front, back, rfl, counts, names⟩ := counts_of_composite h hb
      rw [names, List.mem_cons, not_or] at left
      obtain ⟨other, left⟩ := left
      rcases Shape.mem_ids_node.1 hp with e | ⟨s, hs, inside⟩
      · exact absurd e other
      rcases List.mem_append.1 hs with hs' | hs'
      · have left' : p ∉ refreshed s f := fun hp' => left (List.mem_flatMap.2 ⟨s, hs', hp'⟩)
        obtain ⟨t, ht, ne, mem, pinned⟩ := ih s hs (h.of_mem_below hs) inside left'
        refine ⟨t, Shape.mem_parts_node.2 (.inr ⟨s, hs, ht⟩), ne, mem, ?_⟩
        rwa [demandAt, (counts.counted s hs').demand (Shape.id_mem_ids_of_mem_parts ht)]
      · -- The count stopped at the front, and what is in the back only adds to its total.
        have closed := counts.closed (List.ne_nil_of_mem hs')
        refine ⟨_, Shape.self_mem_parts _, Ne.symm other, hp, ?_⟩
        rw [demandAt, Shape.id_node, Node.demand, counts.body, List.map_append]
        exact isPinned_append closed
    | leaf l =>
      rw [refreshed, hb, List.mem_singleton] at left
      exact absurd (childless (by simp [hb])) left
    | scripted r =>
      rw [refreshed, hb, List.mem_singleton] at left
      exact absurd (childless (by simp [hb])) left

end

/-- After the demand of a queue of a tree is updated, every composite queue that was refreshed, the
queue itself among them, demands what its children then demand, in any order, summed once and cut
once at its cap. -/
theorem demand_eq_cut_sum {f : Forest} {q : QueueId} (rooted : f.IsRooted q) :
    let g := f.updateDemand q
    q ∈ f.refreshes q ∧
      ∀ p ∈ f.refreshes q, ∀ c, (g.node p).body = .composite c →
        ∀ l : List QueueId, l.Perm c.children →
        (∀ cap, g.maxShare p = some cap →
          c.demand = (sum (l.map fun r => (g.node r).demand)).clampTo cap) ∧
        (g.maxShare p = none → c.demand = sum (l.map fun r => (g.node r).demand)) := by
  intro g
  refine ⟨?_, fun p hp c hb l hl => ?_⟩
  · have : (f.shape q).id = q := id_unfold f _ q
    cases hs : f.shape q with
    | node r below =>
      rw [hs, Shape.id_node] at this
      rw [refreshes, hs, refreshed, this]
      split <;> simp
  · have settled : (g.node p).demand = g.due p := demand_of_refreshed rooted.follows hp
    rw [Node.demand, due, hb] at settled
    dsimp only at settled
    rw [settled, Resource.sum_perm (hl.map _)]
    refine ⟨fun cap hcap => ?_, fun hcap => ?_⟩ <;> rw [hcap] <;> rfl

/-- A root that is limited in memory only, over a queue that wants more than that and over a leaf
whose demand was last counted when it wanted cores. -/
def pinnedSample : Forest where
  allocation :=
    { queues := Table.ofList [("root", { maxResources := some (.ofMemoryCores 10 0) })] }
  nodes :=
    #[{ name := "root", parent := none, policy := .demand, sink := 0
        body := .composite { children := [1, 3] } },
      { name := "root.a", parent := some 0, policy := .demand, sink := 1
        body := .composite { children := [2] } },
      { name := "root.a.x", parent := some 1, policy := .demand, sink := 2
        body := .leaf
          { apps := [{ attempt := ⟨⟨1⟩, 1⟩, user := "ann", pending := [.ofMemoryCores 15 1] }] } },
      { name := "root.b", parent := some 0, policy := .demand, sink := 3
        body := .leaf
          { apps := [{ attempt := ⟨⟨2⟩, 1⟩, user := "bob", pending := [.ofMemoryCores 3 0] }]
            demand := .ofMemoryCores 0 4 } }]

/-- The leaf is left with the demand it had, and the cores of it count at the root. -/
theorem demand_eq_cut_sum_sample :
    pinnedSample.IsRooted 0 ∧ pinnedSample.refreshes 0 = [0, 1, 2] ∧
      ((pinnedSample.updateDemand 0).node 0).demand = .ofMemoryCores 10 5 ∧
      ∀ c, ((pinnedSample.updateDemand 0).node 0).body = .composite c →
        c.demand = (sum (c.children.reverse.map fun r =>
          ((pinnedSample.updateDemand 0).node r).demand)).clampTo (.ofMemoryCores 10 0) := by
  have rooted : pinnedSample.IsRooted 0 := by decide
  obtain ⟨self, each⟩ := demand_eq_cut_sum rooted
  refine ⟨rooted, by decide +kernel, by decide +kernel, fun c hc => ?_⟩
  exact (each 0 self c hc _ (List.reverse_perm _)).1 _ (by decide +kernel)

end Forest
end FairShare
