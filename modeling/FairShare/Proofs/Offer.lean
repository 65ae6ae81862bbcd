import Mathlib.Data.List.Find
import FairShare.Proofs.Walk

/-!
What it does to offer a machine to a queue.  Siblings are brought into the order of their policy,
and requests are granted until one of them uses anything or no leaf is left to ask.  Every grant is
made at a leaf that is open to the machine at that moment, and the first is made at the first leaf
of the walk that can grant anything.
-/

namespace FairShare

theorem Node.grant_withChildren (available : Resource) (l : List QueueId) (n : Node) :
    (n.withChildren l).grant available = (n.grant available).withChildren l := by
  cases hb : n.body with
  | composite c => simp [grant, withChildren, mapComposite, mapLeaf, hb]
  | leaf a => simp [grant, withChildren, mapComposite, mapLeaf, hb]
  | scripted a => simp [grant, withChildren, mapComposite, mapLeaf, hb]

@[simp] theorem Node.offerable_withChildren (available : Resource) (l : List QueueId) (n : Node) :
    (n.withChildren l).offerable available = n.offerable available := by
  rw [offerable, offerable, withChildren_apps]

namespace Forest

theorem update_congr {f : Forest} {q : QueueId} {h k : Node → Node}
    (e : h (f.node q) = k (f.node q)) : f.update q h = f.update q k := by
  have nodes : f.nodes.modify q h = f.nodes.modify q k := by
    apply Array.ext
    · simp
    intro i hi _
    have hlt : i < f.nodes.size := by simpa using hi
    rw [Array.getElem_modify, Array.getElem_modify]
    split
    · next hq =>
      subst hq
      simpa [node, Array.getD_eq_getD_getElem?, hlt] using e
    · rfl
  rw [update, nodes, update]

namespace Reordered

variable {f g : Forest}

theorem grant (fg : Reordered f g) (available : Resource) (q : QueueId) :
    Reordered (f.grant available q) (g.grant available q) where
  allocation := fg.allocation
  metrics := fg.metrics
  size := by rw [Forest.grant, Forest.grant, size_update, size_update, fg.size]
  node p := by
    obtain ⟨l, hl, e⟩ := fg.node p
    refine ⟨l, (hl.trans ((alike_grant f available q).children p).symm), ?_⟩
    rw [Forest.grant, Forest.grant, node_update, node_update, fg.size, e]
    split
    · exact Node.grant_withChildren _ _ _
    · rfl

theorem accepts (fg : Reordered f g) (machine : Machine) (s : Shape) :
    g.accepts machine s = f.accepts machine s := by
  rw [Forest.accepts, Forest.accepts, fg.maxShare, fg.usageBelow]

theorem isOpen (fg : Reordered f g) (machine : Machine) (s : Shape) (leaf : QueueId) :
    g.isOpen machine s leaf = f.isOpen machine s leaf := by
  simp only [Forest.isOpen, fg.accepts]

theorem grantsAt (fg : Reordered f g) (machine : Machine) (s : Shape) :
    g.grantsAt machine s = f.grantsAt machine s := by
  funext leaf
  rw [Forest.grantsAt, Forest.grantsAt, fg.isOpen,
    fg.node_eq (Node.offerable_withChildren machine.available)]

theorem walk (fg : Reordered f g) (s : Shape) : g.walk g.ranking s = f.walk f.ranking s := by
  induction s with
  | node q below ih =>
    cases hb : (f.node q).body with
    | composite c =>
      obtain ⟨l, hg⟩ := fg.body_of_composite hb
      have order : g.inOrder (g.node q).policy below = f.inOrder (f.node q).policy below := by
        simp only [inOrder, fg.standing, fg.node_eq Node.withChildren_policy]
      rw [walk_of_composite hb, walk_of_composite hg, order]
      exact List.flatMap_congr fun s hs => ih s (mem_inOrder.1 hs)
    | leaf l =>
      rw [walk_of_leaf hb, walk_of_leaf (by rw [fg.node_of_not_composite (by simp [hb]), hb])]
    | scripted a =>
      have hg : (g.node q).body = .scripted a := by
        rw [fg.node_of_not_composite (by simp [hb]), hb]
      simp only [Forest.walk, hb, hg]

end Reordered

/-- Requests granted at queues in turn, with siblings reordered before.  Only the last request may
use anything, and it is what the offer gives. -/
inductive Places (available : Resource) (may : Forest → QueueId → Prop) :
    Forest → List QueueId → Forest → Resource → Prop
  | none {f g : Forest} (order : Reordered f g) : Places available may f [] g .zero
  | last {f g : Forest} {q : QueueId} {request : Resource} (order : Reordered f g)
      (allowed : may g q) (found : (g.node q).offerable available = some request)
      (used : request.isZero = false) :
      Places available may f [q] (g.grant available q) request
  | next {f g h : Forest} {q : QueueId} {qs : List QueueId} {granted : Resource}
      (order : Reordered f g) (allowed : may g q)
      (found : (g.node q).offerable available = some .zero)
      (rest : Places available may (g.grant available q) qs h granted) :
      Places available may f (q :: qs) h granted

namespace Places

variable {available granted : Resource} {may : Forest → QueueId → Prop} {f g h : Forest}
  {qs ps : List QueueId}

theorem of_reordered (fg : Reordered f g) (placed : Places available may g qs h granted) :
    Places available may f qs h granted := by
  cases placed with
  | none order => exact .none (fg.trans order)
  | last order allowed found used => exact .last (fg.trans order) allowed found used
  | next order allowed found rest => exact .next (fg.trans order) allowed found rest

/-- What reordering and every grant preserve, an offer preserves. -/
theorem preserves {P : Forest → Prop} (placed : Places available may f qs g granted)
    (reordered : ∀ f g, P f → Reordered f g → P g)
    (served : ∀ g q request, P g → may g q → (g.node q).offerable available = some request →
      P (g.grant available q))
    (holds : P f) : P g := by
  induction placed with
  | none order => exact reordered _ _ holds order
  | last order allowed found used =>
    have now := reordered _ _ holds order
    exact served _ _ _ now allowed found
  | next order allowed found rest ih =>
    have now := reordered _ _ holds order
    exact ih (served _ _ _ now allowed found)

theorem append (first : Places available may f qs g .zero)
    (second : Places available may g ps h granted) :
    Places available may f (qs ++ ps) h granted := by
  generalize hz : Resource.zero = z at first
  induction first with
  | none order => exact second.of_reordered order
  | last order allowed found used =>
    subst hz
    cases used
  | next order allowed found rest ih => exact .next order allowed found (ih second hz)

/-- What holds until a request that uses anything is granted holds at every grant. -/
theorem keeping {P : Forest → Prop} (holds : P f)
    (reordered : ∀ f g, P f → Reordered f g → P g)
    (nothing : ∀ g q, P g → (g.node q).offerable available = some .zero → P (g.grant available q))
    (placed : Places available may f qs g granted) :
    Places available (fun g q => P g ∧ may g q) f qs g granted := by
  induction placed with
  | none order => exact .none order
  | last order allowed found used =>
    exact .last order ⟨reordered _ _ holds order, allowed⟩ found used
  | next order allowed found rest ih =>
    have now := reordered _ _ holds order
    exact .next order ⟨now, allowed⟩ found (ih (nothing _ _ now found))

theorem mono {may' : Forest → QueueId → Prop} (weaker : ∀ f q, may f q → may' f q)
    (placed : Places available may f qs g granted) : Places available may' f qs g granted := by
  induction placed with
  | none order => exact .none order
  | last order allowed found used => exact .last order (weaker _ _ allowed) found used
  | next order allowed found rest ih => exact .next order (weaker _ _ allowed) found ih

theorem alike (placed : Places available may f qs g granted) : Alike f g := by
  apply placed.preserves (P := Alike f)
  · intro g h fg gh
    exact fg.trans gh.alike
  · intro g q _ fg _ _
    exact fg.trans (alike_grant g available q)
  · exact .refl f

theorem reordered (placed : Places available may f [] g granted) : Reordered f g := by
  cases placed with
  | none order => exact order

theorem ne_nil_of_not_isZero (placed : Places available may f qs g granted)
    (used : granted.isZero = false) : qs ≠ [] := by
  rintro rfl
  cases placed
  cases used

/-- Every grant adds one container, and together these use what is told. -/
theorem containers {root : QueueId} (tree : f.IsTree root)
    (inside : ∀ h p, Alike f h → may h p → p ∈ h.queues root)
    (placed : Places available may f qs g granted) :
    ∃ added, (g.containers root).Perm (added ++ f.containers root) ∧ added.length = qs.length ∧
      ∀ d, Resource.exact (added.map Container.resource) d = granted.get d := by
  have one {f g : Forest} {p : QueueId} {request : Resource} (tree : f.IsTree root)
      (order : Reordered f g) (hp : p ∈ g.queues root)
      (found : (g.node p).offerable available = some request) :
      ∃ id, ((g.grant available p).containers root).Perm (⟨id, request⟩ :: f.containers root) := by
    obtain ⟨id, hperm⟩ := containers_grant (order.alike.isTree tree) hp found
    exact ⟨id, hperm.trans ((order.containers root).cons _)⟩
  induction placed with
  | none order => exact ⟨[], order.containers root, rfl, fun d => by simp⟩
  | last order allowed found used =>
    obtain ⟨id, hperm⟩ := one tree order (inside _ _ order.alike allowed) found
    exact ⟨[_], hperm, rfl, fun d => by simp⟩
  | @next f g h p ps granted order allowed found rest ih =>
    have fg := order.alike.trans (alike_grant g available p)
    obtain ⟨id, hperm⟩ := one tree order (inside _ _ order.alike allowed) found
    obtain ⟨added, hadded, length, total⟩ :=
      ih (fg.isTree tree) fun k p gk => inside k p (fg.trans gk)
    refine ⟨⟨id, .zero⟩ :: added, ?_, by rw [List.length_cons, length, List.length_cons], ?_⟩
    · exact (hadded.trans (hperm.append_left added)).trans List.perm_middle
    · intro d
      rw [List.map_cons, Resource.exact_cons, Resource.get_zero, Nat.zero_add, total]

end Places

/-- A queue of a shape that may take a container on a machine. -/
def mayTake (machine : Machine) (s : Shape) (g : Forest) (q : QueueId) : Prop :=
  q ∈ s.ids ∧ g.isOpen machine s q = true

/-- What an offer below a shape does: it begins where the walk says, if it grants anything. -/
def Answers (machine : Machine) (s : Shape) (f : Forest) (answer : Forest × Resource) : Prop :=
  ∃ qs, Places machine.available (mayTake machine s) f qs answer.1 answer.2 ∧
    qs.head? = (f.walk f.ranking s).find? (f.grantsAt machine s)

theorem isOpen_node {f : Forest} {machine : Machine} {q leaf : QueueId} {below : List Shape}
    {s : Shape} (distinct : (Shape.node q below).ids.Nodup) (hs : s ∈ below) (hleaf : leaf ∈ s.ids) :
    f.isOpen machine (.node q below) leaf =
      (f.accepts machine (.node q below) && f.isOpen machine s leaf) := by
  rw [Bool.eq_iff_iff, Bool.and_eq_true, isOpen_iff, isOpen_iff]
  constructor
  · intro opened
    refine ⟨opened _ (Shape.self_mem_parts _) (Shape.mem_ids_node.2 (.inr ⟨s, hs, hleaf⟩)), ?_⟩
    exact fun t ht => opened t (Shape.mem_parts_node.2 (.inr ⟨s, hs, ht⟩))
  · rintro ⟨root, opened⟩ t ht hl
    rcases Shape.mem_parts_node.1 ht with rfl | ⟨u, hu, ht⟩
    · exact root
    · have : u = s :=
        Shape.eq_of_mem_ids distinct hu hs (Shape.ids_subset_of_mem_parts ht hl) hleaf
      exact opened t (this ▸ ht) hl

theorem isOpen_root {f : Forest} {machine : Machine} {q : QueueId} {below : List Shape}
    (distinct : (Shape.node q below).ids.Nodup) :
    f.isOpen machine (.node q below) q = f.accepts machine (.node q below) := by
  rw [Bool.eq_iff_iff, isOpen_iff]
  constructor
  · exact fun opened => opened _ (Shape.self_mem_parts _) (Shape.id_mem_ids _)
  · intro root t ht hq
    rcases Shape.mem_parts_node.1 ht with rfl | ⟨s, hs, ht⟩
    · exact root
    · exact absurd (Shape.ids_subset_of_mem_parts ht hq)
        (Shape.not_mem_ids_of_mem_below distinct hs)

theorem not_isOpen {f : Forest} {machine : Machine} {s : Shape} {leaf : QueueId}
    (hleaf : leaf ∈ s.ids) (refused : f.accepts machine s = false) :
    f.isOpen machine s leaf = false := by
  rw [← Bool.not_eq_true, isOpen_iff]
  intro opened
  have := opened s s.self_mem_parts hleaf
  rw [refused] at this
  cases this

/-- Offers in turn answer as their walks one after the other. -/
theorem answers_firstGrant {machine : Machine} {l : List Shape}
    (each : ∀ s ∈ l, ∀ f : Forest, f.Carries s → Answers machine s f (offer machine s f))
    {f : Forest} (carried : ∀ s ∈ l, f.Carries s) :
    ∃ qs, Places machine.available (fun g q => ∃ s ∈ l, mayTake machine s g q) f qs
        (firstGrant (l.map (offer machine)) f).1 (firstGrant (l.map (offer machine)) f).2 ∧
      qs.head? = l.findSome? fun s => (f.walk f.ranking s).find? (f.grantsAt machine s) := by
  induction l generalizing f with
  | nil => exact ⟨[], .none (.refl f), rfl⟩
  | cons s rest ih =>
    obtain ⟨qs, placed, head⟩ := each s (by simp) f (carried s (by simp))
    have first : Places machine.available (fun g q => ∃ t ∈ s :: rest, mayTake machine t g q) f qs
        (offer machine s f).1 (offer machine s f).2 := by
      apply placed.mono
      intro g q hq
      exact ⟨s, by simp, hq⟩
    rw [List.map_cons, firstGrant]
    -- The first offer that uses anything ends the scan; an offer that gave nothing does not, even
    -- if requests for nothing were granted.
    cases hz : (offer machine s f).2.isZero with
    | false =>
      obtain ⟨q, tail, rfl⟩ := List.exists_cons_of_ne_nil (placed.ne_nil_of_not_isZero hz)
      refine ⟨q :: tail, by simpa [hz] using first, ?_⟩
      rw [List.findSome?_cons, ← head]
      rfl
    | true =>
      have carried' : ∀ t ∈ rest, (offer machine s f).1.Carries t := by
        intro t ht
        exact placed.alike.carries (carried t (by simp [ht]))
      obtain ⟨ps, placed', head'⟩ := ih (fun t ht => each t (by simp [ht])) carried'
      have second : Places machine.available (fun g q => ∃ t ∈ s :: rest, mayTake machine t g q)
          (offer machine s f).1 ps (firstGrant (rest.map (offer machine)) (offer machine s f).1).1
          (firstGrant (rest.map (offer machine)) (offer machine s f).1).2 := by
        apply placed'.mono
        rintro g q ⟨t, ht, hq⟩
        exact ⟨t, by simp [ht], hq⟩
      rw [Resource.eq_zero_of_isZero hz] at first
      refine ⟨qs ++ ps, by simpa [hz] using first.append second, ?_⟩
      rw [List.findSome?_cons, ← head]
      cases qs with
      | cons q tail => rfl
      | nil =>
        -- Nothing was granted, so the children that follow are as before.
        rw [List.nil_append, head']
        simp only [placed.reordered.walk, placed.reordered.grantsAt, List.head?_nil]

section

variable {machine : Machine} {q : QueueId} {below : List Shape} {f : Forest}

theorem offer_of_refused (carried : f.Carries (.node q below))
    (refused : f.accepts machine (.node q below) = false) :
    offer machine (.node q below) f = (f, .zero) := by
  rcases carried.body_root with ⟨c, hb⟩ | ⟨l, hb⟩ <;> rw [offer, hb] <;> simp [refused]

theorem offer_of_composite {c : Composite} (hb : (f.node q).body = .composite c)
    (accepted : f.accepts machine (.node q below) = true) :
    offer machine (.node q below) f =
      firstGrant ((f.inOrder (f.node q).policy below).map (offer machine))
        (f.update q (Node.withChildren ((f.inOrder (f.node q).policy below).map Shape.id))) := by
  rw [offer, hb]
  simp only [accepted, if_true, offers_eq_map, rankBy_map, List.map_map, Function.comp_def]
  rfl

theorem offer_of_leaf {l : Leaf} (hb : (f.node q).body = .leaf l)
    (accepted : f.accepts machine (.node q below) = true) :
    offer machine (.node q below) f =
      match (f.node q).offerable machine.available with
      | some request => (f.grant machine.available q, request)
      | none => (f, .zero) := by
  rw [offer, hb, Node.offerable_of_leaf hb]
  simp only [accepted, if_true]
  cases hg : l.grant? machine.available with
  | none => rfl
  | some answer =>
    have granted : f.update q (Node.mapLeaf fun _ => answer.2) = f.grant machine.available q :=
      update_congr (Node.grant_of_leaf hb hg).symm
    simp [granted]

theorem answers_of_refused (carried : f.Carries (.node q below))
    (refused : f.accepts machine (.node q below) = false) :
    Answers machine (.node q below) f (offer machine (.node q below) f) := by
  rw [offer_of_refused carried refused]
  refine ⟨[], .none (.refl f), (List.find?_eq_none.2 fun leaf hleaf => ?_).symm⟩
  rw [grantsAt, not_isOpen (mem_ids_of_mem_walk hleaf) refused]
  simp

theorem answers_of_composite {c : Composite} (hb : (f.node q).body = .composite c)
    (carried : f.Carries (.node q below)) (accepted : f.accepts machine (.node q below) = true)
    (each : ∀ s ∈ below, ∀ f : Forest, f.Carries s → Answers machine s f (offer machine s f)) :
    Answers machine (.node q below) f (offer machine (.node q below) f) := by
  have walked := walk_of_composite hb below
  rw [offer_of_composite hb accepted]
  generalize hl : f.inOrder (f.node q).policy below = l at walked ⊢
  have hperm : l.Perm below := hl ▸ perm_ranked _ below
  have hmem : ∀ s ∈ l, s ∈ below := fun s hs => hperm.mem_iff.1 hs
  have order := Reordered.update ((hperm.map Shape.id).trans carried.children_root.symm)
  obtain ⟨qs, placed, head⟩ := answers_firstGrant (fun s hs => each s (hmem s hs))
    fun s hs => order.alike.carries (carried.of_mem_below (hmem s hs))
  refine ⟨qs, ?_, ?_⟩
  · -- Until anything is used, the queue has the usage with which it accepted.
    let P (g : Forest) : Prop :=
      g.Carries (.node q below) ∧ g.accepts machine (.node q below) = true
    have reordered (f g : Forest) (h : P f) (fg : Reordered f g) : P g :=
      ⟨fg.alike.carries h.1, (fg.accepts _ _).trans h.2⟩
    have nothing (g : Forest) (p : QueueId) (h : P g)
        (found : (g.node p).offerable machine.available = some .zero) :
        P (g.grant machine.available p) := by
      have same := alike_grant g machine.available p
      refine ⟨same.carries h.1, ?_⟩
      rw [accepts, same.maxShare, usageBelow_grant_zero h.1 found]
      exact h.2
    apply ((placed.of_reordered order).keeping ⟨carried, accepted⟩ reordered nothing).mono
    rintro g p ⟨⟨-, accepted⟩, s, hs, hp, opened⟩
    refine ⟨Shape.mem_ids_node.2 (.inr ⟨s, hmem s hs, hp⟩), ?_⟩
    rw [isOpen_node carried.distinct (hmem s hs) hp, accepted, opened]
    rfl
  · have same (s : Shape) (hs : s ∈ l) : (f.walk f.ranking s).find? (f.grantsAt machine s) =
        (f.walk f.ranking s).find? (f.grantsAt machine (.node q below)) := by
      refine List.find?_congr fun leaf hleaf => ?_
      rw [grantsAt, grantsAt, isOpen_node carried.distinct (hmem s hs)
        (mem_ids_of_mem_walk hleaf), accepted, Bool.true_and]
    simp only [head, order.walk, order.grantsAt, walked, List.find?_flatMap]
    simpa only [List.findSome?_map, Function.id_comp] using
      congrArg (List.findSome? id) (List.map_congr_left same)

theorem answers_of_leaf {l : Leaf} (hb : (f.node q).body = .leaf l)
    (accepted : f.accepts machine (.node q []) = true) :
    Answers machine (.node q []) f (offer machine (.node q []) f) := by
  have distinct : (Shape.node q []).ids.Nodup := by simp [Shape.ids_node]
  have opened : f.isOpen machine (.node q []) q = true := (isOpen_root distinct).trans accepted
  have allowed : mayTake machine (.node q []) f q := ⟨Shape.id_mem_ids _, opened⟩
  have walked : (f.walk f.ranking (.node q [])).find? (f.grantsAt machine (.node q [])) =
      if ((f.node q).offerable machine.available).isSome then some q else none := by
    rw [walk_of_leaf hb, List.find?_singleton, grantsAt, opened, Bool.true_and]
  rw [Answers, walked, offer_of_leaf hb accepted]
  cases found : (f.node q).offerable machine.available with
  | none => exact ⟨[], .none (.refl f), rfl⟩
  | some request =>
    refine ⟨[q], ?_, rfl⟩
    cases hz : request.isZero with
    | false => exact .last (.refl f) allowed found hz
    | true =>
      obtain rfl := Resource.eq_zero_of_isZero hz
      exact .next (.refl f) allowed found (.none (.refl _))

end

/-- An offer answers as its walk. -/
theorem answers_offer (machine : Machine) (s : Shape) {f : Forest} (carried : f.Carries s) :
    Answers machine s f (offer machine s f) := by
  induction s generalizing f with
  | node q below ih =>
    -- By induction on the shape, for every forest that carries it: the offers to the children are
    -- made in forests that the offers before have changed.
    cases accepted : f.accepts machine (.node q below) with
    | false => exact answers_of_refused carried accepted
    | true =>
      rcases carried.body_root with ⟨c, hb⟩ | ⟨l, hb⟩
      · exact answers_of_composite hb carried accepted fun s hs f h => ih s hs h
      · obtain rfl := carried.below_leaf hb
        exact answers_of_leaf hb accepted

theorem firstGrant_preserves {P : Forest → Prop} {l : List Offer}
    (each : ∀ o ∈ l, ∀ f, P f → P (o f).1) {f : Forest} (holds : P f) : P (firstGrant l f).1 := by
  induction l generalizing f with
  | nil => exact holds
  | cons o rest ih =>
    rw [firstGrant]
    have now := each o (by simp) f holds
    cases hz : (o f).2.isZero with
    | false => simpa [hz] using now
    | true => simpa [hz] using ih (fun o ho => each o (by simp [ho])) now

/-- What reordering siblings, granting a request and visiting a scripted leaf preserve, an offer
preserves, whatever shape it follows. -/
theorem offer_preserves {P : Forest → Prop} {machine : Machine}
    (reordered : ∀ f q l, P f → P (f.update q (Node.withChildren l)))
    (served : ∀ f q request, P f → (f.node q).offerable machine.available = some request →
      P (f.grant machine.available q))
    (visited : ∀ f q k, P f → P (f.update q (Node.mapScripted k))) (s : Shape) {f : Forest}
    (holds : P f) : P (offer machine s f).1 := by
  induction s generalizing f with
  | node q below ih =>
    have asked (s : Scripted) (hb : (f.node q).body = .scripted s) :
        P (offer machine (.node q below) f).1 := by
      rw [offer, hb]
      exact visited f q _ holds
    cases accepted : f.accepts machine (.node q below) with
    | false =>
      cases hb : (f.node q).body with
      | composite c => simpa [offer, hb, accepted] using holds
      | leaf l => simpa [offer, hb, accepted] using holds
      | scripted s => exact asked s hb
    | true =>
      cases hb : (f.node q).body with
      | composite c =>
        rw [offer_of_composite hb accepted]
        refine firstGrant_preserves ?_ (reordered f q _ holds)
        rintro o ho g hg
        obtain ⟨s, hs, rfl⟩ := List.mem_map.1 ho
        exact ih s (mem_inOrder.1 hs) hg
      | leaf l =>
        rw [offer_of_leaf hb accepted]
        cases found : (f.node q).offerable machine.available with
        | none => exact holds
        | some request => exact served f q request holds found
      | scripted s => exact asked s hb

/-- An offer changes only queues of the shape it follows. -/
theorem node_offer_of_not_mem {machine : Machine} {s : Shape} {p : QueueId} (hp : p ∉ s.ids)
    (f : Forest) : (offer machine s f).1.node p = f.node p := by
  induction s generalizing f with
  | node q below ih =>
    have hpq : p ≠ q := fun e => hp (e ▸ Shape.id_mem_ids _)
    cases accepted : f.accepts machine (.node q below) with
    | false =>
      cases hb : (f.node q).body with
      | composite c => simp [offer, hb, accepted]
      | leaf l => simp [offer, hb, accepted]
      | scripted s => simp [offer, hb, node_update_of_ne f _ hpq]
    | true =>
      cases hb : (f.node q).body with
      | composite c =>
        rw [offer_of_composite hb accepted]
        have start := node_update_of_ne f
          (Node.withChildren ((f.inOrder (f.node q).policy below).map Shape.id)) hpq
        refine firstGrant_preserves (P := fun g => g.node p = f.node p) ?_ start
        rintro o ho g hg
        obtain ⟨s, hs, rfl⟩ := List.mem_map.1 ho
        have hs := mem_inOrder.1 hs
        rw [ih s hs fun h => hp (Shape.mem_ids_node.2 (.inr ⟨s, hs, h⟩)), hg]
      | leaf l =>
        rw [offer_of_leaf hb accepted]
        cases (f.node q).offerable machine.available with
        | none => rfl
        | some request => exact node_grant_of_ne hpq
      | scripted s => simp [offer, hb, node_update_of_ne f _ hpq]

theorem node_firstGrant_of_not_mem {machine : Machine} {l : List Shape} {p : QueueId}
    (hp : ∀ s ∈ l, p ∉ s.ids) (f : Forest) :
    (firstGrant (l.map (offer machine)) f).1.node p = f.node p := by
  refine firstGrant_preserves (P := fun g => g.node p = f.node p) ?_ rfl
  rintro o ho g hg
  obtain ⟨s, hs, rfl⟩ := List.mem_map.1 ho
  rw [node_offer_of_not_mem (hp s hs), hg]

/-- A queue that takes part is left with its children in order, whatever happens below it. -/
theorem node_offer_of_composite {machine : Machine} {q : QueueId} {below : List Shape} {f : Forest}
    {c : Composite} (hb : (f.node q).body = .composite c)
    (accepted : f.accepts machine (.node q below) = true) (known : q < f.nodes.size)
    (apart : ∀ s ∈ below, q ∉ s.ids) :
    (offer machine (.node q below) f).1.node q =
      (f.node q).withChildren ((f.inOrder (f.node q).policy below).map Shape.id) := by
  have below_apart (s : Shape) (hs : s ∈ f.inOrder (f.node q).policy below) : q ∉ s.ids :=
    apart s (mem_inOrder.1 hs)
  rw [offer_of_composite hb accepted, node_firstGrant_of_not_mem below_apart,
    node_update_self f _ known]

end Forest
end FairShare
