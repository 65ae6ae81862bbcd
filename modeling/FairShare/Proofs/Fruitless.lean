import FairShare.Proofs.Exhaustion
import FairShare.Proofs.Rehearsal

/-!
Offers that give nothing.  Such an offer still puts the children of the queues that it comes to into
order.  A policy that does not look at the order in which queues below siblings are listed ranks the
siblings afterwards as before, so the next offer finds them in order and keeps them: once nothing
was given, the same offer gives nothing again and leaves everything as it is.
-/

namespace FairShare

/-- The second standing is the first one but for the order of siblings, at any depth below it. -/
inductive Standing.Shuffles : Standing → Standing → Prop
  | intro {s : Standing} {l m : List Standing} (each : List.Forall₂ Shuffles s.children l)
      (perm : l.Perm m) : Shuffles s { s with children := m }

namespace Policy

/-- The policy does not look at the order in which the queues below siblings are listed. -/
def IgnoresOrder (p : Policy) : Prop :=
  ∀ s s' t t' : Standing, s.Shuffles s' → t.Shuffles t' → p.compare s' t' = p.compare s t

/-- A policy that does not look at the queues below siblings ignores their order. -/
theorem ignoresOrder_of_children {p : Policy}
    (h : ∀ s t l m, p.compare { s with children := l } { t with children := m } = p.compare s t) :
    p.IgnoresOrder := by
  rintro s _ t _ ⟨⟩ ⟨⟩
  exact h _ _ _ _

theorem ignoresOrder_of_mem_catalogue {p : Policy} (hp : p ∈ catalogue) : p.IgnoresOrder := by
  apply ignoresOrder_of_children
  simp only [catalogue, List.mem_cons, List.not_mem_nil, or_false] at hp
  rcases hp with rfl | rfl | rfl | rfl | rfl | rfl | rfl | rfl <;> exact fun _ _ _ _ => rfl

end Policy

namespace Forest

variable {f g : Forest} {machine : Machine} {q : QueueId} {s : Shape}

namespace Reordered

theorem usageBelow_unfold (fg : Reordered f g) (n : Nat) (q : QueueId) :
    f.usageBelow (g.unfold n q) = f.usageBelow (f.unfold n q) := by
  induction n generalizing q with
  | zero => rfl
  | succ n ih =>
    have each : ((f.node q).children.map (g.unfold n)).map f.usageBelow =
        ((f.node q).children.map (f.unfold n)).map f.usageBelow := by
      rw [List.map_map, List.map_map]
      exact List.map_congr_left fun c _ => ih c
    have perm := ((fg.alike.children q).map (g.unfold n)).map f.usageBelow
    rw [unfold, unfold, Forest.usageBelow, Forest.usageBelow, usagesBelow_eq_map,
      usagesBelow_eq_map, Resource.sum_perm perm, each]

/-- What a policy sees of a queue differs in the order of siblings only. -/
theorem shuffles_unfold (fg : Reordered f g) (n : Nat) (q : QueueId) :
    (f.standing (f.unfold n q)).Shuffles (g.standing (g.unfold n q)) := by
  rw [fg.standing]
  induction n generalizing q with
  | zero => exact .intro .nil .nil
  | succ n ih =>
    have each : List.Forall₂ Standing.Shuffles (f.standing (f.unfold (n + 1) q)).children
        ((f.node q).children.map fun c => f.standing (g.unfold n c)) := by
      rw [unfold, Forest.standing, standings_eq_map, List.map_map, List.forall₂_map_left_iff,
        List.forall₂_map_right_iff, List.forall₂_same]
      exact fun c _ => ih c
    have perm := ((fg.alike.children q).map fun c => f.standing (g.unfold n c)).symm
    have usage := fg.usageBelow_unfold (n + 1) q
    have whole : f.standing (g.unfold (n + 1) q) =
        { f.standing (f.unfold (n + 1) q) with
          children := (g.node q).children.map fun c => f.standing (g.unfold n c) } := by
      rw [unfold, unfold] at usage ⊢
      rw [Forest.standing, Forest.standing, usage, standings_eq_map, List.map_map]
      rfl
    rw [whole]
    exact .intro each perm

theorem rankBelow_shape (fg : Reordered f g) (ignores : (f.node q).policy.IgnoresOrder)
    (a b : QueueId) :
    g.rankBelow q (g.shape a) (g.shape b) = f.rankBelow q (f.shape a) (f.shape b) := by
  have policy : (g.node q).policy = (f.node q).policy := fg.node_eq Node.withChildren_policy q
  rw [rankBelow, rankBelow, policy, shape, shape, shape, shape, fg.size]
  exact ignores _ _ _ _ (fg.shuffles_unfold _ a) (fg.shuffles_unfold _ b)

/-- Children that were put into order once are in order. -/
theorem orderedChildren_eq (fg : Reordered f g) (ignores : (f.node q).policy.IgnoresOrder)
    (order : Std.TransCmp (f.node q).policy.compare)
    (ordered : (g.node q).children = f.orderedChildren q) :
    g.orderedChildren q = (g.node q).children := by
  have := transCmp_rankBelow order
  have := transCmp_comap (f.rankBelow q) f.shape
  have same : (fun a b => g.rankBelow q (g.shape a) (g.shape b)) =
      fun a b => f.rankBelow q (f.shape a) (f.shape b) :=
    funext fun a => funext fun b => fg.rankBelow_shape ignores a b
  rw [orderedChildren, same, ordered, orderedChildren, ranked_ranked]

end Reordered

/-- Along a shape, the queues that are open to a machine list their children in the order in which
the policies put them in a forest. -/
def ListsInOrder (f : Forest) (machine : Machine) (s : Shape) (g : Forest) : Prop :=
  ∀ t ∈ s.parts, f.isOpen machine s t.id = true →
    (g.node t.id).children = (f.inOrder (f.node t.id).policy t.subtrees).map Shape.id

/-- What a queue of a shape has to offer for a machine is never a request for nothing. -/
def OffersSome (f : Forest) (machine : Machine) (s : Shape) : Prop :=
  ∀ p ∈ s.ids, (f.node p).offerable machine.available ≠ some .zero

section

variable {below l : List Shape}

theorem OffersSome.of_reordered (asks : f.OffersSome machine s)
    (fg : Reordered f g) : g.OffersSome machine s := by
  intro p hp
  rw [fg.node_eq (Node.offerable_withChildren machine.available)]
  exact asks p hp

theorem ListsInOrder.of_reordered {h : Forest} (listed : g.ListsInOrder machine s h)
    (fg : Reordered f g) : f.ListsInOrder machine s h := by
  intro t ht opened
  rw [listed t ht (by rwa [fg.isOpen])]
  simp only [inOrder, fg.standing, fg.node_eq Node.withChildren_policy]

/-- An offer that gives nothing only reorders. -/
theorem reordered_of_fruitless (carried : f.Carries s) (asks : f.OffersSome machine s)
    (fruitless : (offer machine s f).2.isZero = true) : Reordered f (offer machine s f).1 := by
  obtain ⟨qs, placed, -⟩ := answers_offer machine s carried
  generalize offer machine s f = answer at placed fruitless
  obtain ⟨g, granted⟩ := answer
  cases placed with
  | none order => exact order
  | last order allowed found used => exact absurd fruitless (by simp [used])
  | next order allowed found rest =>
    exact absurd found (asks.of_reordered order _ allowed.1)

/-- Fruitless offers in turn come to every shape, and later ones leave the children of earlier ones
in order. -/
theorem listsInOrder_firstGrant
    (each : ∀ s ∈ l, ∀ f : Forest, f.Carries s → f.OffersSome machine s →
      (offer machine s f).2.isZero = true → f.ListsInOrder machine s (offer machine s f).1)
    (distinct : (l.flatMap Shape.ids).Nodup) (carried : ∀ s ∈ l, f.Carries s)
    (asks : ∀ s ∈ l, f.OffersSome machine s)
    (fruitless : (firstGrant (l.map (offer machine)) f).2.isZero = true) :
    ∀ s ∈ l, f.ListsInOrder machine s (firstGrant (l.map (offer machine)) f).1 := by
  induction l generalizing f with
  | nil => simp
  | cons s rest ih =>
    obtain ⟨-, distinct', apart⟩ := List.nodup_append.1 (List.flatMap_cons ▸ distinct)
    rw [List.map_cons, firstGrant] at fruitless ⊢
    cases first : (offer machine s f).2.isZero with
    | false => simp [first] at fruitless
    | true =>
      simp only [first, if_true] at fruitless ⊢
      have order := reordered_of_fruitless (carried s (by simp)) (asks s (by simp)) first
      have now := each s (by simp) f (carried s (by simp)) (asks s (by simp)) first
      have later := ih (fun t ht => each t (by simp [ht])) distinct'
        (fun t ht => order.alike.carries (carried t (by simp [ht])))
        (fun t ht => (asks t (by simp [ht])).of_reordered order) fruitless
      intro t ht
      rcases List.mem_cons.1 ht with rfl | ht
      · intro u hu opened
        have untouched (v : Shape) (hv : v ∈ rest) : u.id ∉ v.ids := fun h =>
          apart u.id (Shape.id_mem_ids_of_mem_parts hu) u.id (List.mem_flatMap.2 ⟨v, hv, h⟩) rfl
        rw [node_firstGrant_of_not_mem untouched, now u hu opened]
      · exact (later t ht).of_reordered order

theorem listsInOrder_of_composite {c : Composite} (hb : (f.node q).body = .composite c)
    (carried : f.Carries (.node q below)) (accepted : f.accepts machine (.node q below) = true)
    (each : ∀ s ∈ below, ∀ f : Forest, f.Carries s → f.OffersSome machine s →
      (offer machine s f).2.isZero = true → f.ListsInOrder machine s (offer machine s f).1)
    (asks : f.OffersSome machine (.node q below))
    (fruitless : (offer machine (.node q below) f).2.isZero = true) :
    f.ListsInOrder machine (.node q below) (offer machine (.node q below) f).1 := by
  have hperm : (f.inOrder (f.node q).policy below).Perm below := perm_ranked _ _
  have listed := (hperm.map Shape.id).trans carried.children_root.symm
  have order := Reordered.update listed
  intro t ht opened
  rcases Shape.mem_parts_node.1 ht with rfl | ⟨s, hs, ht⟩
  · have known : q < f.nodes.size := carried.known q (Shape.id_mem_ids _)
    rw [Shape.id_node, Shape.subtrees_node, node_offer_of_composite hb accepted known fun s hs =>
      Shape.not_mem_ids_of_mem_below carried.distinct hs, Node.children_withChildren listed]
  · have distinct := (List.nodup_cons.1 (Shape.ids_node q below ▸ carried.distinct)).2
    rw [isOpen_node carried.distinct hs (Shape.id_mem_ids_of_mem_parts ht), accepted,
      Bool.true_and] at opened
    rw [offer_of_composite hb accepted] at fruitless ⊢
    -- The children are offered the machine in the forest in which the root lists them in order.
    have all := listsInOrder_firstGrant (fun s hs => each s (mem_inOrder.1 hs))
      ((hperm.flatMap_right Shape.ids).nodup_iff.2 distinct)
      (fun s hs => order.alike.carries (carried.of_mem_below (mem_inOrder.1 hs)))
      (fun s hs p hp => ?_) fruitless
    · exact (all s (mem_inOrder.2 hs)).of_reordered order t ht opened
    · rw [order.node_eq (Node.offerable_withChildren machine.available)]
      exact asks p (Shape.mem_ids_node.2 (.inr ⟨s, mem_inOrder.1 hs, hp⟩))

/-- A fruitless offer leaves the children of every open queue in order. -/
theorem listsInOrder_offer (carried : f.Carries s) (asks : f.OffersSome machine s)
    (fruitless : (offer machine s f).2.isZero = true) :
    f.ListsInOrder machine s (offer machine s f).1 := by
  induction s generalizing f with
  | node q below ih =>
    cases accepted : f.accepts machine (.node q below) with
    | false =>
      intro t ht opened
      rw [not_isOpen (Shape.id_mem_ids_of_mem_parts ht) accepted] at opened
      cases opened
    | true =>
      rcases carried.body_root with ⟨c, hb⟩ | ⟨l, hb⟩
      · exact listsInOrder_of_composite hb carried accepted (fun s hs f => ih s hs) asks fruitless
      · have other (c : Composite) : (f.node q).body ≠ .composite c := by simp [hb]
        have order := reordered_of_fruitless carried asks fruitless
        intro t ht _
        obtain rfl := carried.below_leaf hb
        obtain rfl : t = .node q [] := by simpa [Shape.parts_node] using ht
        rw [Shape.id_node, Shape.subtrees_node, order.node_of_not_composite other,
          Node.children_of_leaf hb]
        rfl

end

theorem firstGrant_of_idle {l : List Offer} (idle : ∀ o ∈ l, o f = (f, .zero)) :
    firstGrant l f = (f, .zero) := by
  induction l with
  | nil => rfl
  | cons o rest ih =>
    rw [firstGrant, idle o (by simp)]
    exact ih fun o ho => idle o (by simp [ho])

theorem update_withChildren_children (f : Forest) (q : QueueId) :
    f.update q (Node.withChildren (f.node q).children) = f := by
  refine eq_of_node rfl rfl (size_update f q _) fun p => ?_
  rw [node_update]
  split
  · next hp => rw [hp.1, Node.withChildren_children]
  · rfl

/-- Where open queues list their children in order and no open leaf has a request that fits, an
offer changes nothing. -/
theorem offer_eq_self (carried : f.Carries s) (listed : f.ListsInOrder machine s f)
    (idle : ∀ p ∈ s.ids, f.isOpen machine s p = true →
      (f.node p).offerable machine.available = none) :
    offer machine s f = (f, .zero) := by
  induction s with
  | node q below ih =>
    cases accepted : f.accepts machine (.node q below) with
    | false => exact offer_of_refused carried accepted
    | true =>
      have root : f.isOpen machine (.node q below) q = true :=
        (isOpen_root carried.distinct).trans accepted
      rcases carried.body_root with ⟨c, hb⟩ | ⟨l, hb⟩
      · have children := listed _ (Shape.self_mem_parts _) root
        rw [Shape.id_node, Shape.subtrees_node] at children
        rw [offer_of_composite hb accepted, ← children, update_withChildren_children]
        apply firstGrant_of_idle
        rintro o ho
        obtain ⟨s, hs, rfl⟩ := List.mem_map.1 ho
        have hs := mem_inOrder.1 hs
        have opened (p : QueueId) (hp : p ∈ s.ids) (h : f.isOpen machine s p = true) :
            f.isOpen machine (.node q below) p = true := by
          rw [isOpen_node carried.distinct hs hp, accepted, h]
          rfl
        refine ih s hs (carried.of_mem_below hs) (fun t ht h => ?_) fun p hp h => ?_
        · exact listed t (Shape.mem_parts_node.2 (.inr ⟨s, hs, ht⟩))
            (opened t.id (Shape.id_mem_ids_of_mem_parts ht) h)
        · exact idle p (Shape.mem_ids_node.2 (.inr ⟨s, hs, hp⟩)) (opened p hp h)
      · obtain rfl := carried.below_leaf hb
        rw [offer_of_leaf hb accepted, idle q (Shape.id_mem_ids _) root]

/-- In a tree the order along the shape is that of the children of each queue. -/
theorem IsTree.map_id_inOrder (tree : f.IsTree q) {t : Shape} (ht : t ∈ (f.shape q).parts) :
    (f.inOrder (f.node t.id).policy t.subtrees).map Shape.id = f.orderedChildren t.id := by
  have ht' : t.id ∈ f.queues q := f.queues_eq_ids q ▸ Shape.id_mem_ids_of_mem_parts ht
  have below : t.subtrees = (f.node t.id).children.map f.shape := by
    conv_lhs => rw [← tree.shape_of_mem_parts ht, (tree.of_mem_queues ht').shape_eq]
    rw [Shape.subtrees_node]
  rw [below, inOrder_children, map_id_map_shape]

/-- A machine that no leaf can be given is offered in vain where the children of every queue on the
way were put into order before. -/
theorem assign_eq_self (order : Reordered f g) (tree : f.IsTree q)
    (orders : ∀ p ∈ f.queues q, Std.TransCmp (f.node p).policy.compare)
    (ignores : ∀ p ∈ f.queues q, (f.node p).policy.IgnoresOrder)
    (listed : f.ListsInOrder machine (f.shape q) g)
    (ineligible : ∀ leaf ∈ f.queues q, f.eligible machine q leaf = false) :
    g.assign machine q = (g, .zero) := by
  have tree' : g.IsTree q := order.alike.isTree tree
  have known {p : QueueId} (hp : p ∈ (g.shape q).ids) : p ∈ f.queues q :=
    order.alike.mem_queues.1 (g.queues_eq_ids q ▸ hp)
  refine offer_eq_self tree'.carries (fun t ht opened => ?_) fun p hp opened => ?_
  · have ht' := known (Shape.id_mem_ids_of_mem_parts ht)
    rw [order.isOpen_shape tree ht'] at opened
    rw [tree'.map_id_inOrder ht]
    -- The same queue is the root of a part of the shape before.
    obtain ⟨u, hu, same⟩ := List.mem_map.1 (f.queues_eq_ids q ▸ ht')
    rw [← same] at opened ht' ⊢
    refine (order.orderedChildren_eq (ignores _ ht') (orders _ ht') ?_).symm
    rw [listed u hu opened, tree.map_id_inOrder hu]
  · have none := ineligible p (known hp)
    rw [← order.eligible tree, ← grantsAt_shape tree' (g.queues_eq_ids q ▸ hp), grantsAt, opened,
      Bool.true_and] at none
    simpa using none

/-- After an assignment that gave nothing, the same assignment gives nothing again and leaves the
children of every queue as the first one left them. -/
theorem assign_again_of_fruitless (machine : Machine) (tree : f.IsTree q) (asks : f.AsksForSome q)
    (orders : ∀ p ∈ f.queues q, Std.TransCmp (f.node p).policy.compare)
    (ignores : ∀ p ∈ f.queues q, (f.node p).policy.IgnoresOrder)
    (fruitless : (f.assign machine q).2 = .zero) :
    (f.assign machine q).1.assign machine q = ((f.assign machine q).1, .zero) := by
  have nothing : (f.assign machine q).2.isZero = true := by
    rw [fruitless]
    rfl
  have some : f.OffersSome machine (f.shape q) := fun p hp =>
    Node.offerable_ne_zero (asks p (f.queues_eq_ids q ▸ hp)) _
  have listed : f.ListsInOrder machine (f.shape q) (f.assign machine q).1 :=
    listsInOrder_offer tree.carries some nothing
  rcases assign_cases tree asks machine with ⟨-, order, ineligible⟩ | ⟨used, -⟩
  · exact assign_eq_self order tree orders ignores listed ineligible
  · rw [nothing] at used
    cases used

/-- Two levels, neither of them in the order of its policy, with requests for more than there is. -/
def unserved : Forest where
  allocation := {}
  nodes :=
    #[{ name := "root", parent := none, policy := .nameDesc, sink := 0
        body := .composite { children := [1, 2] } },
      { name := "root.a", parent := some 0, policy := .demand, sink := 1
        body := .composite { children := [3, 4] } },
      { name := "root.b", parent := some 0, policy := .demand, sink := 2
        body := .leaf
          { apps := [{ attempt := ⟨⟨1⟩, 1⟩, user := "ann", pending := [.ofMemoryCores 9 1] }] } },
      { name := "root.a.x", parent := some 1, policy := .demand, sink := 3
        body := .leaf
          { apps := [{ attempt := ⟨⟨2⟩, 1⟩, user := "bob", pending := [.ofMemoryCores 3 1] }]
            demand := .ofMemoryCores 3 1 } },
      { name := "root.a.y", parent := some 1, policy := .demand, sink := 4
        body := .leaf
          { apps := [{ attempt := ⟨⟨3⟩, 1⟩, user := "eve", pending := [.ofMemoryCores 5 1] }]
            demand := .ofMemoryCores 5 1 } }]

theorem mem_catalogue_unserved (p : QueueId) (hp : p ∈ unserved.queues 0) :
    (unserved.node p).policy ∈ Policy.catalogue := by
  have queues : unserved.queues 0 = [0, 1, 3, 4, 2] := by decide
  have named : (unserved.node p).policy = .nameDesc ∨ (unserved.node p).policy = .demand := by
    simp only [queues, List.mem_cons, List.not_mem_nil, or_false] at hp
    rcases hp with rfl | rfl | rfl | rfl | rfl
    · exact .inl rfl
    all_goals exact .inr rfl
  rcases named with e | e <;> rw [e] <;> simp [Policy.catalogue]

/-- The first assignment turns both lists around, the second one neither. -/
theorem assign_again_of_fruitless_unserved :
    let machine : Machine := ⟨"m", .ofMemoryCores 2 2, none⟩
    let g := (unserved.assign machine 0).1
    unserved.IsTree 0 ∧ unserved.AsksForSome 0 ∧ (unserved.assign machine 0).2 = .zero ∧
      (g.node 0).children = [2, 1] ∧ (g.node 1).children = [4, 3] ∧
      g.assign machine 0 = (g, .zero) := by
  have tree : unserved.IsTree 0 := by decide
  have asks : unserved.AsksForSome 0 := by decide +kernel
  have fruitless : (unserved.assign ⟨"m", .ofMemoryCores 2 2, none⟩ 0).2 = .zero := by
    decide +kernel
  refine ⟨tree, asks, fruitless, by decide +kernel, by decide +kernel, ?_⟩
  exact assign_again_of_fruitless ⟨"m", .ofMemoryCores 2 2, none⟩ tree asks
    (fun p hp => Policy.transCmp_of_mem_catalogue (mem_catalogue_unserved p hp))
    (fun p hp => Policy.ignoresOrder_of_mem_catalogue (mem_catalogue_unserved p hp)) fruitless

end Forest
end FairShare
