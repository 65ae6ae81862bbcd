import FairShare.Proofs.Lineage
import FairShare.Proofs.Overshoot
import FairShare.Proofs.Rehearsal
import FairShare.Proofs.Starvation

/-!
Which children a dry run shows.  A dry run leaves out the children whose demand is met, and demand
is cut at the caps.  An offer does not look at demand: a queue that uses all it may still takes one
container more.  So a child that a container would be placed below is shown if the container asks
for anything of which there is still room on the way down to its leaf, while no queue there uses
more than it may.
-/

namespace FairShare

/-- What an application has gained was waiting there. -/
theorem App.Moves.pending_of_gained {a b : App} (ab : a.Moves b) {k : Container}
    (hk : k ∈ a.gained b) : k.resource ∈ a.pending := by
  obtain ⟨moved, rest, waits, rfl⟩ := ab
  rw [gained, List.drop_left, List.mem_mapIdx] at hk
  obtain ⟨i, hi, rfl⟩ := hk
  rw [waits]
  exact List.mem_append_left rest (List.getElem_mem hi)

theorem AppsMove.pending_of_gained {l m : List App} (lm : AppsMove l m) {k : Container}
    (hk : k ∈ (List.zipWith App.gained l m).flatten) : ∃ a ∈ l, k.resource ∈ a.pending := by
  induction lm with
  | nil => cases hk
  | @cons a b l m ab _ ih =>
    rw [List.zipWith_cons_cons, List.flatten_cons, List.mem_append] at hk
    rcases hk with hk | hk
    · exact ⟨a, List.mem_cons_self, ab.pending_of_gained hk⟩
    · obtain ⟨a', ha', waits⟩ := ih hk
      exact ⟨a', List.mem_cons_of_mem a ha', waits⟩

theorem Leaf.get_usage_le (l : Leaf) (dim : String) :
    l.usage.get dim ≤ (Resource.sum (l.apps.flatMap App.claims)).get dim := by
  have more := exact_running_le l.apps dim
  rw [l.usage_eq_usageOf, usageOf, Resource.get_sum, Resource.get_sum]
  omega

namespace Resource

theorem exact_map_le {α : Type} {l : List α} {a b : α → Resource} {dim : String}
    (le : ∀ x ∈ l, (a x).get dim ≤ (b x).get dim) : exact (l.map a) dim ≤ exact (l.map b) dim := by
  induction l with
  | nil => exact le_rfl
  | cons x l ih =>
    rw [List.map_cons, List.map_cons, exact_cons, exact_cons]
    exact Nat.add_le_add (le x List.mem_cons_self) (ih fun y hy => le y (List.mem_cons_of_mem x hy))

theorem exact_map_lt {α : Type} {l : List α} {a b : α → Resource} {dim : String}
    (le : ∀ x ∈ l, (a x).get dim ≤ (b x).get dim) {x : α} (hx : x ∈ l)
    (lt : (a x).get dim < (b x).get dim) : exact (l.map a) dim < exact (l.map b) dim := by
  obtain ⟨front, back, rfl⟩ := List.append_of_mem hx
  have before := exact_map_le fun y hy => le y (List.mem_append_left _ hy)
  have after := exact_map_le fun y hy =>
    le y (List.mem_append_right front (List.mem_cons_of_mem x hy))
  simp only [List.map_append, List.map_cons, exact_append, exact_cons]
  omega

end Resource

namespace Forest

section

variable {f : Forest} {s : Shape} {c d q leaf : QueueId} {dim : String}

/-- The queue of a shape uses no more of a dimension than its cap leaves it. -/
def IsWithin (f : Forest) (dim : String) (s : Shape) : Prop :=
  (f.usageBelow s).get dim ≤ ceiling (f.maxShare s.id) dim

/-- The queue of a shape uses less of a dimension than its cap leaves it. -/
def HasRoom (f : Forest) (dim : String) (s : Shape) : Prop :=
  (f.usageBelow s).get dim < ceiling (f.maxShare s.id) dim

theorem usageBelow_of_composite {c : Composite} (hb : (f.node q).body = .composite c)
    (below : List Shape) : f.usageBelow (.node q below) = .sum (below.map f.usageBelow) := by
  rw [usageBelow, hb, usagesBelow_eq_map]

theorem usageBelow_of_leaf {l : Leaf} (hb : (f.node q).body = .leaf l) (below : List Shape) :
    f.usageBelow (.node q below) = l.usage := by
  rw [usageBelow, hb]

theorem freshBelow_of_composite {c : Composite} (hb : (f.node q).body = .composite c)
    (below : List Shape) : f.freshBelow (.node q below) =
      cut (f.maxShare q) (.sum (below.map f.freshBelow)) := by
  rw [freshBelow, hb, freshAmong_eq_map]

theorem freshBelow_of_leaf {l : Leaf} (hb : (f.node q).body = .leaf l) (below : List Shape) :
    f.freshBelow (.node q below) =
      cut (f.maxShare q) (.sum (l.apps.flatMap App.claims)) := by
  rw [freshBelow, hb, Node.claims, Node.apps_of_leaf hb]

/-- Where no queue is above its cap, a fresh count comes to the usage at least. -/
theorem usage_le_fresh (carried : f.Carries s) (within : ∀ t ∈ s.parts, f.IsWithin dim t) :
    (f.usageBelow s).get dim ≤ (f.freshBelow s).get dim := by
  induction s with
  | node q below ih =>
    have own : f.IsWithin dim (.node q below) := within _ (Shape.self_mem_parts _)
    rw [IsWithin, Shape.id_node] at own
    rcases carried.body_root with ⟨c, hb⟩ | ⟨l, hb⟩
    · have each : ∀ s ∈ below, (f.usageBelow s).get dim ≤ (f.freshBelow s).get dim := fun s hs =>
        ih s hs (carried.of_mem_below hs) fun t ht =>
          within t (Shape.mem_parts_node.2 (.inr ⟨s, hs, ht⟩))
      have sums := Resource.exact_map_le each
      rw [usageBelow_of_composite hb, Resource.get_sum] at own ⊢
      rw [freshBelow_of_composite hb, get_cut, Resource.get_sum]
      omega
    · have wants := l.get_usage_le dim
      rw [usageBelow_of_leaf hb] at own ⊢
      rw [freshBelow_of_leaf hb, get_cut]
      omega

/-- A request that waits in a leaf makes the fresh count exceed the usage, all the way up to where
there is no room. -/
theorem usage_lt_fresh (carried : f.Carries s) (within : ∀ t ∈ s.parts, f.IsWithin dim t)
    (room : ∀ t ∈ s.parts, leaf ∈ t.ids → f.HasRoom dim t) (hleaf : leaf ∈ s.ids) {a : App}
    (ha : a ∈ (f.node leaf).apps) {r : Resource} (hr : r ∈ a.pending) (asks : 0 < r.get dim) :
    (f.usageBelow s).get dim < (f.freshBelow s).get dim := by
  induction s with
  | node q below ih =>
    have own : f.HasRoom dim (.node q below) := room _ (Shape.self_mem_parts _) hleaf
    have most := ceiling_le (f.maxShare q) dim
    rw [HasRoom, Shape.id_node] at own
    rcases carried.body_root with ⟨c, hb⟩ | ⟨l, hb⟩
    · -- A composite queue holds no application, so the leaf is below one of its children.
      have other : leaf ≠ q := by
        rintro rfl
        rw [Node.apps_of_composite hb] at ha
        cases ha
      obtain ⟨s, hs, hleaf⟩ := (Shape.mem_ids_node.1 hleaf).resolve_left other
      have part {s t : Shape} (hs : s ∈ below) (ht : t ∈ s.parts) : t ∈ (Shape.node q below).parts :=
        Shape.mem_parts_node.2 (.inr ⟨s, hs, ht⟩)
      have more : (f.usageBelow s).get dim < (f.freshBelow s).get dim :=
        ih s hs (carried.of_mem_below hs) (fun t ht => within t (part hs ht))
          (fun t ht => room t (part hs ht)) hleaf
      have each : ∀ t ∈ below, (f.usageBelow t).get dim ≤ (f.freshBelow t).get dim := fun t ht =>
        usage_le_fresh (carried.of_mem_below ht) fun u hu => within u (part ht hu)
      have sums := Resource.exact_map_lt each hs more
      rw [usageBelow_of_composite hb, Resource.get_sum] at own ⊢
      rw [freshBelow_of_composite hb, get_cut, Resource.get_sum]
      omega
    · rw [carried.below_leaf hb] at hleaf
      obtain rfl : leaf = q := by simpa [Shape.ids_node] using hleaf
      rw [Node.apps_of_leaf hb] at ha
      rw [usageBelow_of_leaf hb] at own ⊢
      have wants := Leaf.get_usage_lt ha hr asks (own.trans_le most)
      rw [freshBelow_of_leaf hb, get_cut]
      omega

theorem mem_simulate (tree : f.IsTree c) (hd : d ∈ (f.node c).children) :
    d ∈ f.simulate c ↔ (f.node d).demand.fitsIn (f.usage d) = false := by
  rw [simulate_eq_filter tree.rooted, List.mem_filter, orderedChildren, mem_ranked]
  simp [hd, isUnmet]

theorem queues_of_not_isComposite (tree : f.IsTree q) (plain : (f.node q).isComposite = false) :
    f.queues q = [q] := by
  have childless : (f.node q).children = [] := by
    apply Node.children_of_not_composite
    intro c hb
    rw [Node.isComposite, hb] at plain
    cases plain
  rw [queues_eq_ids, tree.shape_eq, childless, List.map_nil, Shape.ids_node, List.flatMap_nil]

/-- In one dimension there is no room left for a leaf below a queue: a queue on the way down to the
leaf uses all that its cap leaves it, or a queue anywhere below uses more. -/
def IsSpent (f : Forest) (d leaf : QueueId) (dim : String) : Prop :=
  (∃ q ∈ f.way d leaf, (f.usage q).get dim = ceiling (f.maxShare q) dim) ∨
    ∃ q ∈ f.queues d, ceiling (f.maxShare q) dim < (f.usage q).get dim

instance (f : Forest) (d leaf : QueueId) (dim : String) : Decidable (f.IsSpent d leaf dim) := by
  unfold IsSpent
  infer_instance

/-- A request that waits in a leaf below a queue makes the fresh count of the queue exceed its
usage, unless what is asked for is spent. -/
theorem isSpent_of_fits (tree : f.IsTree d) (met : (f.fresh d).fitsIn (f.usage d) = true)
    (hleaf : leaf ∈ f.queues d) {a : App} (ha : a ∈ (f.node leaf).apps) {r : Resource}
    (hr : r ∈ a.pending) (asks : 0 < r.get dim) : f.IsSpent d leaf dim := by
  by_contra left
  rw [IsSpent, not_or] at left
  obtain ⟨unfilled, within⟩ := left
  have usage (t : Shape) (ht : t ∈ (f.shape d).parts) : f.usage t.id = f.usageBelow t := by
    rw [Forest.usage, tree.shape_of_mem_parts ht]
  have inside (t : Shape) (ht : t ∈ (f.shape d).parts) : f.IsWithin dim t := by
    rw [IsWithin, ← usage t ht]
    by_contra exceeds
    apply within
    exact ⟨t.id, f.queues_eq_ids d ▸ Shape.id_mem_ids_of_mem_parts ht, Nat.lt_of_not_le exceeds⟩
  have room (t : Shape) (ht : t ∈ (f.shape d).parts) (below : leaf ∈ t.ids) : f.HasRoom dim t := by
    apply Nat.lt_of_le_of_ne (inside t ht)
    rw [← usage t ht]
    intro full
    have hl : leaf ∈ f.queues t.id := by
      rwa [queues_eq_ids, tree.shape_of_mem_parts ht]
    apply unfilled
    refine ⟨t.id, List.mem_filter.2 ⟨?_, List.contains_iff_mem.2 hl⟩, full⟩
    exact f.queues_eq_ids d ▸ Shape.id_mem_ids_of_mem_parts ht
  have more : (f.usage d).get dim < (f.fresh d).get dim :=
    usage_lt_fresh tree.carries inside room (f.queues_eq_ids d ▸ hleaf) ha hr asks
  have most := Resource.fitsIn_iff.1 met dim
  omega

/-- Where every demand is the fresh one, a dry run shows a child exactly if the demand of the child
does not fit in its usage.  If an assignment places a container in a leaf below the child, the
child is shown or everything the container asks for is spent on the way to the leaf
or exceeded below the child. -/
theorem simulate_shows_granted (tree : f.IsTree c)
    (counted : ∀ q ∈ f.queues c, (f.node q).demand = f.fresh q) (machine : Machine)
    (hd : d ∈ (f.node c).children) :
    (d ∈ f.simulate c ↔ (f.fresh d).fitsIn (f.usage d) = false) ∧
      ∀ leaf ∈ f.queues d, (f.node leaf).isComposite = false →
        ∀ k ∈ f.placedSince (f.assign machine c).1 leaf,
          d ∈ f.simulate c ∨ ∀ dim, 0 < k.resource.get dim → f.IsSpent d leaf dim := by
  have child : d ∈ f.queues c := tree.child_mem_queues hd
  have below : f.IsTree d := tree.of_mem_queues child
  have shown : d ∈ f.simulate c ↔ (f.fresh d).fitsIn (f.usage d) = false := by
    rw [mem_simulate tree hd, counted d child]
  refine ⟨shown, ?_⟩
  intro leaf hleaf plain k placed
  cases met : (f.fresh d).fitsIn (f.usage d) with
  | false => exact .inl (shown.2 met)
  | true =>
    right
    intro dim asks
    -- What was placed in the leaf waited there before.
    obtain ⟨served, -, -⟩ := assign_accounts tree machine
    rw [placedSince, queues_of_not_isComposite (below.of_mem_queues hleaf) plain,
      List.flatMap_singleton] at placed
    obtain ⟨a, ha, waits⟩ := (served.moves leaf).pending_of_gained placed
    exact isSpent_of_fits below met hleaf ha waits asks

end

end Forest

/-- What the leaf of `cappedLeaf` may use, and as the leaf uses it, one request more. -/
def askAtCap (more : Resource) : List Event :=
  [.submit 1 ⟨⟨1⟩, 1⟩ "ann", .request 1 ⟨⟨1⟩, 1⟩ (.ofMemoryCores 4 0), .request 1 ⟨⟨1⟩, 1⟩ more,
    .assign 0 ⟨"m", .ofMemoryCores 8 8, none⟩, .updateDemand 0]

namespace Forest

/-- A request for cores as well is shown, since the cap leaves the cores alone. -/
theorem simulate_shows_granted_uncapped :
    ∃ asked t, QueueTree.build QueueTree.resolveNamed cappedLeaf = (asked, .ok t) ∧
      let f := (System.run { tree := t } (askAtCap (.ofMemoryCores 2 1))).forest
      (f.assign ⟨"m", .ofMemoryCores 8 8, none⟩ 0).2 = .ofMemoryCores 2 1 ∧ 1 ∈ f.simulate 0 := by
  have facts : ∀ t ∈ (QueueTree.build QueueTree.resolveNamed cappedLeaf).2.toOption,
      let f := (System.run { tree := t } (askAtCap (.ofMemoryCores 2 1))).forest
      f.IsTree 0 ∧ (∀ q ∈ f.queues 0, (f.node q).demand = f.fresh q) ∧ 1 ∈ (f.node 0).children ∧
        1 ∈ f.queues 1 ∧ (f.node 1).isComposite = false ∧
        ⟨⟨⟨⟨1⟩, 1⟩, 2⟩, .ofMemoryCores 2 1⟩ ∈
          f.placedSince (f.assign ⟨"m", .ofMemoryCores 8 8, none⟩ 0).1 1 ∧
        ¬ f.IsSpent 1 1 Resource.coresDim ∧
        (f.assign ⟨"m", .ofMemoryCores 8 8, none⟩ 0).2 = .ofMemoryCores 2 1 := by
    decide +kernel
  obtain ⟨asked, t, built, tree, counted, child, self, leaf, placed, left, granted⟩ :=
    QueueTree.exists_built (by decide +kernel) facts
  refine ⟨asked, t, built, granted, ?_⟩
  obtain ⟨-, shows⟩ := simulate_shows_granted tree counted ⟨"m", .ofMemoryCores 8 8, none⟩ child
  apply (shows 1 self leaf _ placed).resolve_right
  intro spent
  exact left (spent Resource.coresDim (by decide))

/-- A request for memory only is granted too, and not shown: the demand is cut at the cap, which the
usage has reached. -/
theorem simulate_omits_granted :
    ∃ asked t, QueueTree.build QueueTree.resolveNamed cappedLeaf = (asked, .ok t) ∧
      let f := (System.run { tree := t } (askAtCap (.ofMemoryCores 2 0))).forest
      f.IsTree 0 ∧ (∀ q ∈ f.queues 0, (f.node q).demand = f.fresh q) ∧ 1 ∈ (f.node 0).children ∧
        ⟨⟨⟨⟨1⟩, 1⟩, 2⟩, .ofMemoryCores 2 0⟩ ∈
          f.placedSince (f.assign ⟨"m", .ofMemoryCores 8 8, none⟩ 0).1 1 ∧
        (f.assign ⟨"m", .ofMemoryCores 8 8, none⟩ 0).2 = .ofMemoryCores 2 0 ∧
        1 ∉ f.simulate 0 :=
  QueueTree.exists_built (by decide +kernel) (by decide +kernel)

end Forest
end FairShare
