import FairShare.Forest.Preemption
import FairShare.Proofs.Ranked
import FairShare.Proofs.Usage

/-!
Which container is to be given up.  A composite queue passes the question on to the first of the
children that its policy ranks highest, and turns to no other child if that one has nothing to give
up.  So whether a container is found depends on the policies: one is found wherever one runs if the
queues with containers are ranked above their siblings without.
-/

namespace FairShare

/-- A leaf gives up a container if one runs there. -/
theorem Leaf.victim_cases (l : Leaf) :
    (l.apps.flatMap App.running = [] ∧ l.victim? = none) ∨
      ∃ a ∈ l.apps, ∃ c ∈ a.running, l.victim? = some c := by
  rw [victim?]
  by_cases idle : (l.apps.filter fun a => !a.running.isEmpty) = []
  · refine .inl ⟨List.flatMap_eq_nil_iff.2 fun a ha => ?_, by rw [idle]; rfl⟩
    have := List.filter_eq_nil_iff.1 idle a ha
    simpa using this
  · obtain ⟨a, ha, found⟩ := exists_mem_lastGreatest compareUsage idle
    obtain ⟨ha, busy⟩ := List.mem_filter.1 ha
    have running : a.running ≠ [] := by simpa using busy
    refine .inr ⟨a, ha, a.running.getLast running, List.getLast_mem running, ?_⟩
    rw [found, Option.bind_some, List.getLast?_eq_some_getLast running]

namespace Forest

variable {f : Forest} {q : QueueId} {below : List Shape}

theorem victimsBelow_eq_map (f : Forest) (l : List Shape) :
    f.victimsBelow l = l.map fun s => (f.standing s, f.victimBelow s) := by
  induction l with
  | nil => rfl
  | cons s rest ih => rw [victimsBelow, List.map_cons, ih]

/-- How a queue ranks what stands below it. -/
def rankBelow (f : Forest) (q : QueueId) (s t : Shape) : Ordering :=
  (f.node q).policy.compare (f.standing s) (f.standing t)

theorem victimBelow_of_composite {c : Composite} (hb : (f.node q).body = .composite c)
    (below : List Shape) :
    f.victimBelow (.node q below) =
      (firstGreatest (f.rankBelow q) below).bind f.victimBelow := by
  rw [victimBelow]
  simp only [hb]
  rw [victimsBelow_eq_map, firstGreatest_map, Option.bind_map]
  rfl

theorem victimBelow_of_leaf {l : Leaf} (hb : (f.node q).body = .leaf l) (below : List Shape) :
    f.victimBelow (.node q below) = l.victim?.map fun c => ⟨c.id, (f.node q).name, c.resource⟩ := by
  rw [victimBelow]
  simp only [hb]

theorem victim_of_leaf {l : Leaf} (hb : (f.node q).body = .leaf l) :
    f.victim? q = l.victim?.map fun c => ⟨c.id, (f.node q).name, c.resource⟩ := by
  have own := f.id_shape q
  rw [victim?]
  cases hs : f.shape q with
  | node p below =>
    rw [hs, Shape.id_node] at own
    rw [own, victimBelow_of_leaf hb]

theorem transCmp_rankBelow (order : Std.TransCmp (f.node q).policy.compare) :
    Std.TransCmp (f.rankBelow q) := transCmp_comap _ f.standing

/-- A container is found below a shape if one runs there, when every policy ranks the subtrees with
containers above those without. -/
theorem victimBelow_isSome_iff {s : Shape} (carried : f.Carries s)
    (orders : ∀ p ∈ s.ids, Std.TransCmp (f.node p).policy.compare)
    (favours : ∀ t ∈ s.parts, ∀ c ∈ t.subtrees, ∀ d ∈ t.subtrees, f.containersIn c.ids ≠ [] →
      f.containersIn d.ids = [] → f.rankBelow t.id c d = .gt) :
    (f.victimBelow s).isSome = true ↔ f.containersIn s.ids ≠ [] := by
  induction s with
  | node q below ih =>
    rcases carried.body_root with ⟨c, hb⟩ | ⟨l, hb⟩
    · have idle : (f.node q).running = [] := by rw [Node.running, Node.apps_of_composite hb]; rfl
      have all : f.containersIn (Shape.node q below).ids =
          below.flatMap fun s => f.containersIn s.ids := by
        rw [containersIn, Shape.ids_node, List.flatMap_cons, idle, List.nil_append,
          List.flatMap_assoc]
        rfl
      rw [victimBelow_of_composite hb, all, ne_eq, List.flatMap_eq_nil_iff]
      cases below with
      | nil => simp [firstGreatest]
      | cons first rest =>
        have := transCmp_rankBelow (orders q (Shape.id_mem_ids _))
        obtain ⟨before, s, after, found, split, less, most⟩ :=
          firstGreatest_cons (f.rankBelow q) first rest
        rw [found, Option.bind_some]
        rw [split] at carried orders favours ih ⊢
        have hs : s ∈ before ++ s :: after := by simp
        -- The subtree that is chosen is asked alone.
        rw [ih s hs (carried.of_mem_below hs)
          (fun p hp => orders p (Shape.mem_ids_node.2 (.inr ⟨s, hs, hp⟩)))
          fun t ht => favours t (Shape.mem_parts_node.2 (.inr ⟨s, hs, ht⟩))]
        constructor
        · exact fun held none => held (none s hs)
        · intro held none
          apply held
          intro d hd
          by_contra busy
          -- A sibling with containers would rank above the chosen one, which none exceeds.
          have exceeds := favours _ (Shape.self_mem_parts _) d hd s hs busy none
          rw [Shape.id_node] at exceeds
          rcases List.mem_append.1 hd with hd | hd
          · rw [less d hd] at exceeds
            cases exceeds
          · rcases List.mem_cons.1 hd with rfl | hd
            · exact busy none
            · exact most d hd exceeds
    · obtain rfl := carried.below_leaf hb
      have own : f.containersIn (Shape.node q []).ids = l.apps.flatMap App.running := by
        simp [containersIn, Shape.ids_node, Node.running, Node.apps_of_leaf hb]
      rw [victimBelow_of_leaf hb, own, Option.isSome_map]
      rcases l.victim_cases with ⟨idle, none⟩ | ⟨a, ha, c, hc, found⟩
      · simp [idle, none]
      · have busy : c ∈ l.apps.flatMap App.running := List.mem_flatMap.2 ⟨a, ha, hc⟩
        simp [found, List.ne_nil_of_mem busy]

/-- Whether a queue ranks none of its children above one of them. -/
def isGreatestChild (f : Forest) (q c : QueueId) : Bool :=
  (f.node q).children.all fun d => f.rankBelow q (f.shape d) (f.shape c) ≠ .gt

/-- Every queue ranks the children with containers below them above those without. -/
def FavoursHolders (f : Forest) (root : QueueId) : Prop :=
  ∀ q ∈ f.queues root, ∀ c ∈ (f.node q).children, ∀ d ∈ (f.node q).children,
    f.containers c ≠ [] → f.containers d = [] → f.rankBelow q (f.shape c) (f.shape d) = .gt

instance (f : Forest) (root : QueueId) : Decidable (f.FavoursHolders root) :=
  inferInstanceAs (Decidable (∀ q ∈ f.queues root, ∀ c ∈ (f.node q).children,
    ∀ d ∈ (f.node q).children, f.containers c ≠ [] → f.containers d = [] →
      f.rankBelow q (f.shape c) (f.shape d) = .gt))

theorem victim_of_composite (tree : f.IsTree q) (order : Std.TransCmp (f.node q).policy.compare)
    {c : Composite} (hb : (f.node q).body = .composite c) :
    f.victim? q = ((f.node q).children.find? (f.isGreatestChild q)).bind f.victim? := by
  have := transCmp_rankBelow order
  have := transCmp_comap (f.rankBelow q) f.shape
  rw [victim?, tree.shape_eq, victimBelow_of_composite hb, firstGreatest_map,
    firstGreatest_eq_find?, Option.bind_map]
  rfl

theorem exists_greatest_child (order : Std.TransCmp (f.node q).policy.compare)
    (listed : (f.node q).children ≠ []) :
    ((f.node q).children.find? (f.isGreatestChild q)).isSome = true := by
  have := transCmp_rankBelow order
  have := transCmp_comap (f.rankBelow q) f.shape
  obtain ⟨c, -, found⟩ :=
    exists_mem_firstGreatest (fun c d => f.rankBelow q (f.shape c) (f.shape d)) listed
  rw [firstGreatest_eq_find?] at found
  exact Option.isSome_of_eq_some found

theorem victim_isSome_iff (tree : f.IsTree q)
    (orders : ∀ p ∈ f.queues q, Std.TransCmp (f.node p).policy.compare)
    (favours : f.FavoursHolders q) :
    (f.victim? q).isSome = true ↔ f.containers q ≠ [] := by
  rw [victim?, containers, queues_eq_ids]
  refine victimBelow_isSome_iff tree.carries (f.queues_eq_ids q ▸ orders) ?_
  intro t ht c hc d hd busy none
  have known : t.id ∈ f.queues q := f.queues_eq_ids q ▸ Shape.id_mem_ids_of_mem_parts ht
  -- The subtrees of a part are the shapes of the children of its queue.
  have subtrees : t.subtrees = (f.node t.id).children.map f.shape := by
    rw [← tree.shape_of_mem_parts ht, (tree.of_mem_queues known).shape_eq, Shape.subtrees_node,
      Shape.id_node]
  rw [subtrees] at hc hd
  obtain ⟨a, ha, rfl⟩ := List.mem_map.1 hc
  obtain ⟨b, hb, rfl⟩ := List.mem_map.1 hd
  rw [← queues_eq_ids] at busy none
  exact favours t.id known a ha b hb busy none

/-- A composite queue passes the question on to the first of its greatest children.  If queues with
containers are ranked above their siblings without, a container is found wherever one runs. -/
theorem victim_of_greatest_child {root : QueueId} (tree : f.IsTree root)
    (orders : ∀ p ∈ f.queues root, Std.TransCmp (f.node p).policy.compare) :
    (∀ q ∈ f.queues root, (f.node q).isComposite = true →
      f.victim? q = ((f.node q).children.find? (f.isGreatestChild q)).bind f.victim? ∧
        ((f.node q).children ≠ [] →
          ((f.node q).children.find? (f.isGreatestChild q)).isSome = true)) ∧
      (f.FavoursHolders root →
        ∀ q ∈ f.queues root, (f.victim? q).isSome = true ↔ f.containers q ≠ []) := by
  constructor
  · intro q hq composite
    have below := tree.of_mem_queues hq
    cases hb : (f.node q).body with
    | composite c =>
      exact ⟨victim_of_composite below (orders q hq) hb, exists_greatest_child (orders q hq)⟩
    | leaf l => simp [Node.isComposite, hb] at composite
    | scripted a => simp [Node.isComposite, hb] at composite
  · intro favours q hq
    refine victim_isSome_iff (tree.of_mem_queues hq) (fun p hp => ?_) fun p hp => ?_
    · exact orders p (tree.mem_queues_trans hq hp)
    · exact favours p (tree.mem_queues_trans hq hp)

/-- A root over a leaf that only waits and over a queue one of whose leaves runs a container. -/
def oneHolder : Forest where
  allocation := {}
  nodes :=
    #[{ name := "root", parent := none, policy := .fair, sink := 0
        body := .composite { children := [1, 2] } },
      { name := "root.a", parent := some 0, policy := .fair, sink := 1
        body := .leaf
          { apps := [{ attempt := ⟨⟨1⟩, 1⟩, user := "ann", pending := [.ofMemoryCores 4 1] }] } },
      { name := "root.b", parent := some 0, policy := .fair, sink := 2
        body := .composite { children := [3, 4] } },
      { name := "root.b.x", parent := some 2, policy := .fair, sink := 3, body := .leaf {} },
      { name := "root.b.y", parent := some 2, policy := .fair, sink := 4
        body := .leaf
          { apps :=
              [{ attempt := ⟨⟨2⟩, 1⟩, user := "bob", nextSequence := 2
                 running := [⟨⟨⟨⟨2⟩, 1⟩, 1⟩, .ofMemoryCores 2 1⟩] }] } }]

theorem oneHolder_orders (p : QueueId) (hp : p ∈ oneHolder.queues 0) :
    Std.TransCmp (oneHolder.node p).policy.compare := by
  have queues : oneHolder.queues 0 = [0, 1, 2, 3, 4] := by decide
  have policy : (oneHolder.node p).policy = .fair := by
    simp only [queues, List.mem_cons, List.not_mem_nil, or_false] at hp
    rcases hp with rfl | rfl | rfl | rfl | rfl <;> rfl
  rw [policy]
  exact Policy.transCmp_of_mem_catalogue (by simp [Policy.catalogue])

/-- Shares by weight favour the queues that hold something, so the container is found two levels
down. -/
theorem victim_of_greatest_child_deep :
    oneHolder.IsTree 0 ∧ oneHolder.FavoursHolders 0 ∧ (oneHolder.victim? 0).isSome = true := by
  have tree : oneHolder.IsTree 0 := by decide
  have favours : oneHolder.FavoursHolders 0 := by decide +kernel
  have busy : oneHolder.containers 0 ≠ [] := by decide +kernel
  have found := (victim_of_greatest_child tree oneHolder_orders).2 favours 0 (by decide)
  exact ⟨tree, favours, found.2 busy⟩

end Forest
end FairShare
