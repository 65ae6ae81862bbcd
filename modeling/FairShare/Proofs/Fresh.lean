import FairShare.Proofs.Counting

/-!
Counting everything afresh.  The demand that a queue would have if nothing were left out is a sum of
what applications hold and wait for, cut at every cap on the way up.  A count that stops early gives
the root this demand if every cap that can stop it names all dimensions that occur below its queue:
what is left out then counts in no dimension that could still grow.
-/

namespace FairShare

/-- What an application holds and what it waits for. -/
def App.claims (a : App) : List Resource := a.running.map Container.resource ++ a.pending

/-- What the applications of a queue hold and wait for. -/
def Node.claims (n : Node) : List Resource := n.apps.flatMap App.claims

theorem App.want_eq_sum (a : App) : a.want = .sum a.claims := (Resource.sum_append _ _).symm

theorem Leaf.want_eq_sum (l : Leaf) : l.want = .sum (l.apps.flatMap App.claims) := by
  have each : l.apps.map App.want = (l.apps.map App.claims).map Resource.sum := by
    rw [List.map_map]
    exact List.map_congr_left fun a _ => a.want_eq_sum
  rw [want, each, Resource.sum_map_sum, List.flatMap_def]

namespace Forest

open Resource (sum)

mutual

/-- What the queue of a shape would demand if it and everything below it were counted afresh. -/
def freshBelow (f : Forest) : Shape → Resource
  | .node q below =>
    match (f.node q).body with
    | .composite _ => cut (f.maxShare q) (sum (f.freshAmong below))
    | _ => cut (f.maxShare q) (sum (f.node q).claims)

def freshAmong (f : Forest) : List Shape → List Resource
  | [] => []
  | s :: rest => f.freshBelow s :: f.freshAmong rest

end

/-- What a queue would demand if everything below it were counted afresh. -/
def fresh (f : Forest) (q : QueueId) : Resource := f.freshBelow (f.shape q)

/-- Every cap of a composite queue that is a cap at all names the dimensions of whatever is
demanded, held or waited for below the queue. -/
def CapsCover (f : Forest) (root : QueueId) : Prop :=
  ∀ c ∈ f.queues root, (f.node c).isComposite = true → ∀ cap ∈ f.maxShare c, cap.isZero = false →
    ∀ p ∈ f.queues c, p ≠ c → ∀ r ∈ (f.node p).demand :: (f.node p).claims,
      ∀ dim ∈ r.dims, dim ∈ cap.dims

instance (f : Forest) (root : QueueId) : Decidable (f.CapsCover root) := by
  unfold CapsCover
  infer_instance

theorem freshAmong_eq_map (f : Forest) (l : List Shape) : f.freshAmong l = l.map f.freshBelow := by
  induction l with
  | nil => rfl
  | cons s rest ih => rw [freshAmong, List.map_cons, ih]

section

variable {f g : Forest} {q : QueueId} {s : Shape} {below : List Shape}

/-- A composite queue claims nothing itself, and there is nothing below any other queue. -/
theorem freshBelow_node (hb : (∀ c, (f.node q).body ≠ .composite c) → below = []) :
    f.freshBelow (.node q below) =
      cut (f.maxShare q) (sum ((f.node q).claims ++ below.map f.freshBelow)) := by
  rw [freshBelow, freshAmong_eq_map]
  split
  · next c hc => rw [Node.claims, Node.apps_of_composite hc, List.flatMap_nil, List.nil_append]
  · next hc => rw [hb hc, List.map_nil, List.append_nil]

theorem Keeps.claims (fg : Keeps f g) (q : QueueId) : (g.node q).claims = (f.node q).claims := by
  rw [Node.claims, Node.claims, fg.apps]

theorem freshBelow_congr (fg : Alike f g)
    (claims : ∀ q, (g.node q).claims = (f.node q).claims) (n : Nat) (q : QueueId) :
    g.freshBelow (g.unfold n q) = f.freshBelow (f.unfold n q) := by
  induction n generalizing q with
  | zero =>
    rw [unfold, unfold, freshBelow_node fun _ => rfl, freshBelow_node fun _ => rfl, claims,
      fg.maxShare]
    rfl
  | succ n ih =>
    have childless (f : Forest) (hb : ∀ c, (f.node q).body ≠ .composite c) :
        (f.node q).children.map (f.unfold n) = [] := by
      rw [Node.children_of_not_composite hb, List.map_nil]
    have each : (g.node q).children.map (fun c => g.freshBelow (g.unfold n c)) =
        (g.node q).children.map fun c => f.freshBelow (f.unfold n c) :=
      List.map_congr_left fun c _ => ih c
    rw [unfold, unfold, freshBelow_node (childless g), freshBelow_node (childless f), claims,
      fg.maxShare, List.map_map, List.map_map]
    congr 1
    refine Resource.sum_perm (.append_left _ ?_)
    exact (List.Perm.of_eq each).trans ((fg.children q).map _)

/-- A fresh count looks at caps and at what is held and waited for only. -/
theorem fresh_congr (fg : Alike f g) (claims : ∀ q, (g.node q).claims = (f.node q).claims)
    (q : QueueId) : g.fresh q = f.fresh q := by
  rw [Forest.fresh, Forest.fresh, shape, shape, fg.size, freshBelow_congr fg claims]

/-- So passes and the order of siblings make no difference to it. -/
theorem Keeps.fresh (fg : Keeps f g) (q : QueueId) : g.fresh q = f.fresh q :=
  fresh_congr fg.toAlike fg.claims q

theorem get_freshBelow_eq_zero {dim : String}
    (none : ∀ p ∈ s.ids, ∀ r ∈ (f.node p).claims, r.get dim = 0) :
    (f.freshBelow s).get dim = 0 := by
  induction s with
  | node q below ih =>
    have all : ∀ r ∈ f.freshAmong below, r.get dim = 0 := by
      rw [freshAmong_eq_map, List.forall_mem_map]
      exact fun s hs => ih s hs fun p hp => none p (Shape.mem_ids_node.2 (.inr ⟨s, hs, hp⟩))
    have own := none q (Shape.id_mem_ids _)
    rw [freshBelow]
    split
    · rw [get_cut, Resource.get_sum_eq_zero all, Nat.zero_min]
    · rw [get_cut, Resource.get_sum_eq_zero own, Nat.zero_min]

/-- The caps in a shape leave out no dimension that occurs below them. -/
def Covered (f : Forest) (s : Shape) : Prop :=
  ∀ t ∈ s.parts, (f.node t.id).isComposite = true → ∀ cap ∈ f.maxShare t.id, cap.isZero = false →
    ∀ u ∈ t.subtrees, ∀ p ∈ u.ids, ∀ r ∈ (f.node p).demand :: (f.node p).claims,
      ∀ dim, cap.get dim = 0 → r.get dim = 0

theorem Covered.of_mem_below (h : f.Covered (.node q below)) (hs : s ∈ below) : f.Covered s :=
  fun t ht => h t (Shape.mem_parts_node.2 (.inr ⟨s, hs, ht⟩))

theorem CapsCover.covered (covers : f.CapsCover q) (tree : f.IsTree q) :
    f.Covered (f.shape q) := by
  intro t ht composite cap hcap nonzero u hu p hp r hr dim zero
  -- In a tree, the queues below a part's queue are those of the part's subtrees.
  have below : f.queues t.id = t.ids := by rw [queues_eq_ids, tree.shape_of_mem_parts ht]
  have member : t.id ∈ f.queues q := f.queues_eq_ids q ▸ Shape.id_mem_ids_of_mem_parts ht
  have distinct := Shape.nodup_ids_of_mem_parts tree.carries.distinct ht
  obtain ⟨id, subtrees⟩ := t
  have inside : p ∈ (Shape.node id subtrees).ids := Shape.mem_ids_node.2 (.inr ⟨u, hu, hp⟩)
  have other : p ≠ id := by
    rintro rfl
    rw [Shape.ids_node, List.nodup_cons] at distinct
    exact distinct.1 (List.mem_flatMap.2 ⟨u, hu, hp⟩)
  have named := covers id member composite cap hcap nonzero p (below ▸ inside) other r hr dim
  rw [Resource.mem_dims, Resource.mem_dims] at named
  omega

/-- Once a total has reached a cap, terms that count in no dimension that the cap leaves out can be
replaced by others of this kind. -/
theorem cut_sum_of_isPinned {cap : Option Resource} {l m n : List Resource}
    (pinned : isPinned cap (cut cap (sum l)) = true)
    (unnamed : ∀ c ∈ cap, ∀ dim, c.get dim = 0 → ∀ r ∈ m ++ n, r.get dim = 0) :
    cut cap (sum (l ++ m)) = cut cap (sum (l ++ n)) := by
  obtain ⟨c, hc, -, -⟩ := isPinned_iff.1 pinned
  apply Resource.ext_get
  intro dim
  -- Where the cap names a dimension the total is the cap; elsewhere the terms amount to nothing.
  by_cases named : c.get dim = 0
  · have none := unnamed c hc dim named
    have left : Resource.exact m dim = 0 := by
      apply Resource.exact_eq_zero
      exact fun r hr => none r (List.mem_append_left n hr)
    have right : Resource.exact n dim = 0 := by
      apply Resource.exact_eq_zero
      exact fun r hr => none r (List.mem_append_right m hr)
    rw [get_cut, get_cut, Resource.get_sum, Resource.get_sum, Resource.exact_append,
      Resource.exact_append, left, right]
  · calc
      (cut cap (sum (l ++ m))).get dim = c.get dim := get_cut_of_isPinned pinned hc named
      _ = (cut cap (sum (l ++ n))).get dim := (get_cut_of_isPinned pinned hc named).symm

/-- Where the caps cover what is below, it makes no difference what the children in the back
demand. -/
theorem Counts.cut_fresh {c : Composite} {front back : List Shape}
    (counts : Counts f g q c front back) (h : f.Follows (.node q (front ++ back)))
    (hb : (f.node q).body = .composite c) (covered : f.Covered (.node q (front ++ back)))
    (counted : front.map g.demandAt = front.map f.freshBelow) :
    cut (f.maxShare q) (sum (front.map f.freshBelow ++ back.map g.demandAt)) =
      cut (f.maxShare q) (sum (front.map f.freshBelow ++ back.map f.freshBelow)) := by
  cases hback : back with
  | nil => rfl
  | cons b rest =>
    rw [← hback]
    have closed := counts.closed (by simp [hback])
    rw [counted] at closed
    apply cut_sum_of_isPinned closed
    intro cap hcap dim zero r hr
    -- In a dimension that the cap does not name, nothing below the queue has any amount.
    obtain ⟨cap', hcap', nonzero, -⟩ := isPinned_iff.1 closed
    obtain rfl : cap = cap' := Option.some.inj (hcap.symm.trans hcap')
    have composite : (f.node q).isComposite = true := by rw [Node.isComposite, hb]
    have none := covered _ (Shape.self_mem_parts _) composite cap hcap nonzero
    rcases List.mem_append.1 hr with hr | hr
    · obtain ⟨s, hs, rfl⟩ := List.mem_map.1 hr
      rw [counts.demandAt_back h hs]
      exact none s (List.mem_append_right front hs) s.id s.id_mem_ids _ List.mem_cons_self dim zero
    · obtain ⟨s, hs, rfl⟩ := List.mem_map.1 hr
      apply get_freshBelow_eq_zero
      intro p hp r hr
      exact none s (List.mem_append_right front hs) p hp r (by simp [hr]) dim zero

/-- A count gives the queue of a shape the demand that a fresh count would give it. -/
theorem demandAt_countDemand (h : f.Follows s) (plain : ∀ p ∈ s.ids, (f.node p).isScripted = false)
    (covered : f.Covered s) : (countDemand s f).demandAt s = f.freshBelow s := by
  induction s with
  | node q below ih =>
    rcases Node.body_of_not_scripted (plain q (Shape.id_mem_ids _)) with ⟨c, hb⟩ | ⟨l, hb⟩
    · obtain ⟨front, back, rfl, counts, -⟩ := counts_of_composite h hb
      generalize countDemand (.node q (front ++ back)) f = g at counts
      -- Each child in front is counted as if it were alone.
      have counted : front.map g.demandAt = front.map f.freshBelow := by
        refine List.map_congr_left fun s hs => ?_
        have hs' : s ∈ front ++ back := List.mem_append_left back hs
        have plain' (p : QueueId) (hp : p ∈ s.ids) : (f.node p).isScripted = false :=
          plain p (Shape.mem_ids_node.2 (.inr ⟨s, hs', hp⟩))
        rw [← ih s hs' (h.of_mem_below hs') plain' (covered.of_mem_below hs')]
        exact (counts.counted s hs).demand s.id_mem_ids
      calc
        g.demandAt (.node q (front ++ back)) =
            cut (f.maxShare q) (sum ((front ++ back).map g.demandAt)) := by
          rw [demandAt, Shape.id_node, Node.demand, counts.body]
        _ = cut (f.maxShare q) (sum (front.map f.freshBelow ++ back.map g.demandAt)) := by
          rw [List.map_append, counted]
        _ = cut (f.maxShare q) (sum (front.map f.freshBelow ++ back.map f.freshBelow)) :=
          counts.cut_fresh h hb covered counted
        _ = f.freshBelow (.node q (front ++ back)) := by
          rw [freshBelow, hb, freshAmong_eq_map, List.map_append]
    · have node := node_countDemand_of_leaf below (h.known q (Shape.id_mem_ids _)) hb
      rw [demandAt, Shape.id_node, node, freshBelow, hb]
      dsimp only [Node.demand]
      rw [l.want_eq_sum, Node.claims, Node.apps_of_leaf hb]

/-- Without caps on composite queues nothing is left out, so every queue is counted afresh. -/
theorem demandAt_countDemand_of_mem_parts (h : f.Follows s)
    (plain : ∀ p ∈ s.ids, (f.node p).isScripted = false)
    (uncapped : ∀ p ∈ s.ids, (f.node p).isComposite = true →
      ∀ cap ∈ f.maxShare p, cap.isZero = true) {t : Shape} (ht : t ∈ s.parts) :
    (countDemand s f).demandAt t = f.freshBelow t := by
  induction s with
  | node q below ih =>
    have covered : f.Covered (.node q below) := by
      intro u hu composite cap hcap nonzero
      rw [uncapped u.id (Shape.id_mem_ids_of_mem_parts hu) composite cap hcap] at nonzero
      cases nonzero
    rcases Shape.mem_parts_node.1 ht with rfl | ⟨s, hs, hts⟩
    · exact demandAt_countDemand h plain covered
    · have inside (p : QueueId) (hp : p ∈ s.ids) : p ∈ (Shape.node q below).ids :=
        Shape.mem_ids_node.2 (.inr ⟨s, hs, hp⟩)
      rcases Node.body_of_not_scripted (plain q (Shape.id_mem_ids _)) with ⟨c, hb⟩ | ⟨l, hb⟩
      · obtain ⟨front, back, rfl, counts, -⟩ := counts_of_composite h hb
        -- Only a cap can stop the count before the last child.
        have all : back = [] := by
          by_contra more
          have closed := counts.closed more
          have composite : (f.node q).isComposite = true := by rw [Node.isComposite, hb]
          rw [isPinned_of_isZero (uncapped q (Shape.id_mem_ids _) composite)] at closed
          cases closed
        rw [all, List.append_nil] at hs
        rw [← ih s (List.mem_append_left back hs) (h.of_mem_below (List.mem_append_left back hs))
          (fun p hp => plain p (inside p hp)) (fun p hp => uncapped p (inside p hp)) hts]
        exact (counts.counted s hs).demand (Shape.id_mem_ids_of_mem_parts hts)
      · rw [h.below_eq_nil (by simp [hb])] at hs
        cases hs

end

/-- Where the caps of composite queues cover what is below them, an update of demand gives the root
the demand of a fresh count, so it does not matter what was counted before, what is left out and in
which order siblings stand.  Without such caps it gives every queue the demand of a fresh count. -/
theorem demand_eq_fresh {f : Forest} {root : QueueId} (tree : f.IsTree root)
    (covers : f.CapsCover root) :
    ((f.updateDemand root).node root).demand = f.fresh root ∧
      (∀ g, Keeps f g → g.CapsCover root →
        ((g.updateDemand root).node root).demand = ((f.updateDemand root).node root).demand) ∧
      ((∀ c ∈ f.queues root, (f.node c).isComposite = true →
          ∀ cap ∈ f.maxShare c, cap.isZero = true) →
        ∀ q ∈ f.queues root, ((f.updateDemand root).node q).demand = f.fresh q) := by
  have afresh {g : Forest} (tree : g.IsTree root) (covers : g.CapsCover root) :
      ((g.updateDemand root).node root).demand = g.fresh root := by
    have counted := demandAt_countDemand tree.rooted.follows tree.carries.plain
      (covers.covered tree)
    rwa [demandAt, shape, id_unfold] at counted
  refine ⟨afresh tree covers, fun g fg covers' => ?_, fun uncapped q hq => ?_⟩
  · calc
      ((g.updateDemand root).node root).demand = g.fresh root := afresh (fg.isTree tree) covers'
      _ = f.fresh root := fg.fresh root
      _ = ((f.updateDemand root).node root).demand := (afresh tree covers).symm
  · rw [queues_eq_ids] at hq
    obtain ⟨t, ht, rfl⟩ := List.mem_map.1 hq
    rw [fresh, tree.shape_of_mem_parts ht]
    apply demandAt_countDemand_of_mem_parts tree.rooted.follows tree.carries.plain _ ht
    exact fun p hp => uncapped p (f.queues_eq_ids root ▸ hp)

/-- The queues of `pinnedSample`, the root under another cap. -/
def coveredSample (cap : Resource) : Forest :=
  { pinnedSample with
    allocation := { queues := Table.ofList [("root", { maxResources := some cap })] } }

/-- The root is at a cap that names all dimensions before its second child is counted.  With the
children the other way round that child is counted and its old demand is gone. -/
theorem demand_eq_fresh_sample :
    let f := coveredSample (.ofMemoryCores 10 1)
    let g := f.update 0 (Node.withChildren [3, 1])
    let h := coveredSample .zero
    f.IsTree 0 ∧ f.CapsCover 0 ∧ Keeps f g ∧ g.CapsCover 0 ∧
      f.refreshes 0 = [0, 1, 2] ∧ g.refreshes 0 = [0, 3, 1, 2] ∧
      f.fresh 0 = .ofMemoryCores 10 1 ∧ ((f.updateDemand 0).node 0).demand = f.fresh 0 ∧
      ((g.updateDemand 0).node 0).demand = ((f.updateDemand 0).node 0).demand ∧
      h.fresh 0 = .ofMemoryCores 18 1 ∧
      ∀ q ∈ h.queues 0, ((h.updateDemand 0).node q).demand = h.fresh q := by
  intro f g h
  have tree : f.IsTree 0 := by decide +kernel
  have covers : f.CapsCover 0 := by decide +kernel
  have swapped : Reordered f g := .update (by decide)
  have covers' : g.CapsCover 0 := by decide +kernel
  have htree : h.IsTree 0 := by decide +kernel
  have hcovers : h.CapsCover 0 := by decide +kernel
  have uncapped : ∀ c ∈ h.queues 0, (h.node c).isComposite = true →
      ∀ cap ∈ h.maxShare c, cap.isZero = true := by decide +kernel
  obtain ⟨root, same, -⟩ := demand_eq_fresh tree covers
  refine ⟨tree, covers, swapped.keeps, covers', by decide +kernel, by decide +kernel,
    by decide +kernel, root, same g swapped.keeps covers', by decide +kernel, ?_⟩
  exact (demand_eq_fresh htree hcovers).2.2 uncapped

end Forest
end FairShare
