import FairShare.Proofs.Conservation
import FairShare.Proofs.Growth
import FairShare.Proofs.Shedding
import FairShare.Proofs.System

/-!
How far a queue can exceed its cap.  A container is placed below a queue only while the queue uses no
more than it may, so at any time there is one container at most without which that would be so.  What
ends or is released makes usages smaller, and everything else leaves them as they are.
-/

namespace FairShare

/-- Containers that use no more than a cap, if there is one, or would without one of them. -/
def NearCap (cap : Option Resource) (l : List Container) : Prop :=
  ∀ m ∈ cap, (usageOf l).fitsUnder m = true ∨
    ∃ c rest, l.Perm (c :: rest) ∧ (usageOf rest).fitsUnder m = true

namespace NearCap

variable {cap : Option Resource} {l m : List Container}

theorem nil : NearCap cap [] := fun m _ => .inl (Resource.zero_fitsUnder m)

theorem perm (h : NearCap cap l) (hm : m.Perm l) : NearCap cap m := by
  intro r hr
  rcases h r hr with fits | ⟨c, rest, hl, fits⟩
  · exact .inl (usageOf_perm hm ▸ fits)
  · exact .inr ⟨c, rest, hm.trans hl, fits⟩

theorem usageOf_fitsUnder {r : Resource} (h : l.Sublist m)
    (fits : (usageOf m).fitsUnder r = true) : (usageOf l).fitsUnder r = true :=
  Resource.sum_fitsUnder_of_sublist (h.map _) fits

theorem sublist (h : NearCap cap l) (hm : m.Sublist l) : NearCap cap m := by
  intro r hr
  rcases h r hr with fits | ⟨c, rest, hl, fits⟩
  · exact .inl (usageOf_fitsUnder hm fits)
  · obtain ⟨m', hm', hsub⟩ := hm.subperm.trans hl.subperm
    -- The container that is one too many may be gone or still be there.
    cases hsub with
    | cons _ hsub => exact .inl (usageOf_perm hm' ▸ usageOf_fitsUnder hsub fits)
    | cons_cons _ hsub => exact .inr ⟨c, _, hm'.symm, usageOf_fitsUnder hsub fits⟩

theorem add (fits : ∀ r ∈ cap, (usageOf l).fitsUnder r = true) {c : Container}
    (hm : m.Perm (c :: l)) : NearCap cap m :=
  fun r hr => .inr ⟨c, l, hm, fits r hr⟩

end NearCap

namespace Forest

/-- A tree whose queues are all near their caps. -/
structure Capped (f : Forest) (root : QueueId) : Prop where
  tree : f.IsTree root
  near : ∀ q ∈ f.queues root, NearCap (f.maxShare q) (f.containers q)

theorem Sheds.capped {f g : Forest} (fg : Sheds f g) {root : QueueId} (capped : f.Capped root) :
    g.Capped root where
  tree := fg.toAlike.isTree capped.tree
  near q hq := by
    have near := capped.near q (fg.toAlike.mem_queues.1 hq)
    have fewer := fg.containersIn (f.queues q)
    rw [fg.toAlike.maxShare]
    exact (near.sublist fewer).perm (fg.toAlike.containers q)

section

variable {f g : Forest} {root : QueueId} {machine : Machine}

/-- Where a leaf is open, the queues above it are under their caps. -/
theorem fitsUnder_of_isOpen (tree : f.IsTree root) (fg : Alike f g) {p q : QueueId}
    (opened : g.isOpen machine (f.shape root) p = true) (hq : q ∈ f.queues root)
    (hp : p ∈ f.queues q) {r : Resource} (hr : g.maxShare q = some r) :
    (usageOf (g.containers q)).fitsUnder r = true := by
  rw [queues_eq_ids] at hq
  obtain ⟨t, ht, rfl⟩ := List.mem_map.1 hq
  have below : f.queues t.id = t.ids := by rw [queues_eq_ids, tree.shape_of_mem_parts ht]
  -- The queue lies on the way to the leaf, so it accepted the machine.
  have accepted := isOpen_iff.1 opened t ht (below ▸ hp)
  rw [accepts, hr, Bool.and_eq_true] at accepted
  have carried := fg.carries (tree.carries.of_mem_parts ht)
  rw [usageOf_perm (fg.containers t.id), below, ← usageBelow_eq_usageOf carried]
  exact accepted.2

/-- A grant at a leaf that is open leaves every queue near its cap. -/
theorem Capped.grant (capped : g.Capped root) (tree : f.IsTree root) (fg : Alike f g)
    {p : QueueId} {request : Resource} (opened : g.isOpen machine (f.shape root) p = true)
    (found : (g.node p).offerable machine.available = some request) :
    (g.grant machine.available p).Capped root := by
  have same := alike_grant g machine.available p
  refine ⟨same.isTree capped.tree, fun q hq => ?_⟩
  have hq := same.mem_queues.1 hq
  rw [same.maxShare]
  by_cases hp : p ∈ g.queues q
  · obtain ⟨id, hperm⟩ := containers_grant (capped.tree.of_mem_queues hq) hp found
    have under : ∀ r ∈ g.maxShare q, (usageOf (g.containers q)).fitsUnder r = true := by
      intro r hr
      exact fitsUnder_of_isOpen tree fg opened (fg.mem_queues.1 hq) (fg.mem_queues.1 hp) hr
    exact .add under hperm
  · -- The container is not below this queue.
    have unchanged := same.containers q
    rw [containersIn_grant_of_not_mem hp] at unchanged
    exact (capped.near q hq).perm unchanged

/-- An assignment from the root leaves every queue near its cap. -/
theorem Capped.assign (capped : f.Capped root) (machine : Machine) :
    (f.assign machine root).1.Capped root := by
  obtain ⟨qs, placed, -⟩ := places_assign capped.tree machine
  -- Leaves are open by the tree before the assignment, so every forest on the way is compared
  -- with that one.
  have both : Alike f (f.assign machine root).1 ∧ (f.assign machine root).1.Capped root := by
    apply placed.preserves (P := fun g => Alike f g ∧ g.Capped root)
    · rintro g h ⟨fg, now⟩ gh
      exact ⟨fg.trans gh.alike, gh.keeps.sheds.capped now⟩
    · rintro g p request ⟨fg, now⟩ allowed found
      exact ⟨fg.trans (alike_grant g _ p), now.grant capped.tree fg allowed.2 found⟩
    · exact ⟨.refl f, capped⟩
  exact both.2

/-- A new queue is near its cap, and the others stay near theirs. -/
theorem Capped.creates (capped : f.Capped root) (created : Creates f g) : g.Capped root := by
  rcases created with kept | ⟨h, n, p, kept, plain, childless, empty, rfl⟩
  · exact kept.sheds.capped capped
  have capped : h.Capped root := kept.sheds.capped capped
  have gains := gains_grow capped.tree plain childless p
  refine ⟨gains.tree, fun q hq => ?_⟩
  rcases gains.containers capped.tree empty hq with none | ⟨old, same⟩
  · rw [none]
    exact .nil
  · rw [maxShare_grow (capped.tree.known q old)]
    exact (capped.near q old).perm same

end

end Forest

namespace System

/-- What a leaf is asked for starts no container. -/
theorem sheds_perform {s : System} {e : Event} (order : e.isOrder = true) :
    Forest.Sheds s.forest (s.perform e).forest := by
  have optional {g : Option Forest} (h : ∀ k, g = some k → Forest.Sheds s.forest k) :
      Forest.Sheds s.forest (g.getD s.forest) := by
    cases g with
    | none => exact (Forest.Keeps.refl _).sheds
    | some k => exact h k rfl
  cases e with
  | submit q attempt user => exact optional fun k => Forest.sheds_submit
  | request q attempt request => exact optional fun k => Forest.sheds_request
  | finish q attempt =>
    refine optional fun k hk => ?_
    obtain ⟨⟨k, user⟩, h, rfl⟩ := Option.map_eq_some_iff.1 hk
    exact Forest.sheds_finish h
  | release q container => exact optional fun k => Forest.sheds_release
  | _ => cases order

/-- A regular operation keeps every queue of a tree near its cap. -/
theorem capped_perform {s : System} {root : QueueId} (hroot : s.tree.root = root) {e : Event}
    (regular : e.isRegular root = true) (capped : s.forest.Capped root) :
    (s.perform e).forest.Capped root ∧ (s.perform e).tree.root = root := by
  subst hroot
  have ordered (h : e.isOrder = true) : (s.perform e).forest.Capped s.tree.root :=
    (sheds_perform h).capped capped
  cases pass : e.isPass with
  | true =>
    have root : (s.perform e).tree.root = s.tree.root := by
      rw [tree_perform]
      rintro name policy rfl
      cases pass
    refine ⟨?_, root⟩
    apply pass_preserves_of_keeps (P := fun f => f.Capped s.tree.root) pass
    case kept =>
      intro f g kept capped
      exact kept.sheds.capped capped
    case assigned =>
      rintro f q machine (rfl | rfl) capped
      · exact capped.assign machine
      · obtain rfl : q = s.tree.root := of_decide_eq_true regular
        exact capped.assign machine
    case holds => exact capped
  | false =>
    cases e with
    | submit q attempt user => exact ⟨ordered rfl, rfl⟩
    | request q attempt request => exact ⟨ordered rfl, rfl⟩
    | finish q attempt => exact ⟨ordered rfl, rfl⟩
    | release q container => exact ⟨ordered rfl, rfl⟩
    | createLeaf name policy =>
      obtain ⟨created, root⟩ := s.tree.createLeaf_creates name policy
      exact ⟨capped.creates created, root⟩
    | reload allocation => cases regular
    | attach parent child => cases regular
    | detach parent name => cases regular
    | _ => cases pass

end System

theorem QueueTree.IsBare.capped {t : QueueTree} (bare : t.IsBare) :
    t.forest.Capped t.root := by
  obtain ⟨n, plain, hn, happs, nodes⟩ := bare.nodes
  have node : t.forest.node 0 = n := by simp [Forest.node, nodes]
  have queues : t.forest.queues 0 = [0] := by
    rw [Forest.queues_eq_ids, Forest.shape, nodes]
    simp [Forest.unfold, node, hn, Shape.ids_node]
  have tree : t.forest.IsTree 0 :=
    ⟨by simp [queues, nodes], by simp [queues], by simp [queues, node, plain]⟩
  have none : t.forest.containers 0 = [] := by
    simp [Forest.containers, Forest.containersIn, queues, Node.running, node, happs]
  rw [bare.root]
  refine ⟨tree, fun q hq => ?_⟩
  obtain rfl : q = 0 := by simpa [queues] using hq
  rw [none]
  exact .nil

/-- In a tree that was built and on which regular operations were performed, in any number and
order, every queue uses no more than it may, or would without one of the containers below it. -/
theorem near_cap_of_run {resolve : String → Except TreeError Policy} {a : Allocation}
    {asked : List String} {t : QueueTree} (built : QueueTree.build resolve a = (asked, .ok t))
    {events : List Event} (regular : ∀ e ∈ events, e.isRegular t.root = true) :
    let f := (System.run { tree := t } events).forest
    ∀ q ∈ f.queues t.root, ∀ cap, f.maxShare q = some cap →
      (f.usage q).fitsUnder cap = true ∨
        ∃ c rest, (f.containers q).Perm (c :: rest) ∧ (usageOf rest).fitsUnder cap = true := by
  have start : t.forest.Capped t.root := by
    apply QueueTree.build_induction (P := fun t => t.forest.Capped t.root) _ _ built
    · intro t bare
      exact bare.capped
    · intro t t' created root capped
      rw [root]
      exact capped.creates created
  have kept : (System.run { tree := t } events).forest.Capped t.root ∧
      (System.run { tree := t } events).tree.root = t.root := by
    apply System.run_preserves (P := fun s => s.forest.Capped t.root ∧ s.tree.root = t.root) _
      regular
    · exact ⟨start, rfl⟩
    · rintro s e ok ⟨capped, root⟩
      exact System.capped_perform root ok capped
  intro f q hq cap hcap
  have capped : f.Capped t.root := kept.1
  rw [Forest.usage_eq_usageOf (capped.tree.of_mem_queues hq)]
  exact capped.near q hq cap hcap

/-- A leaf with a cap. -/
def cappedLeaf : Allocation :=
  { queues := Table.ofList [("root.a", { maxResources := some (.ofMemoryCores 4 0) })] }

/-- Two requests in the leaf, the second granted when the first already runs. -/
def twoGrants : List Event :=
  [.submit 1 ⟨⟨1⟩, 1⟩ "ann", .request 1 ⟨⟨1⟩, 1⟩ (.ofMemoryCores 3 1),
    .request 1 ⟨⟨1⟩, 1⟩ (.ofMemoryCores 3 1), .assign 0 ⟨"m", .ofMemoryCores 8 8, none⟩,
    .assign 0 ⟨"m", .ofMemoryCores 8 8, none⟩]

/-- The leaf is over its cap, by one container. -/
theorem near_cap_of_run_sample :
    ∃ asked t, QueueTree.build QueueTree.resolveNamed cappedLeaf = (asked, .ok t) ∧
      (∀ e ∈ twoGrants, e.isRegular t.root = true) ∧
      ∃ c rest, ((System.run { tree := t } twoGrants).forest.containers 1).Perm (c :: rest) ∧
        (usageOf rest).fitsUnder (.ofMemoryCores 4 0) = true := by
  have facts : ∀ t ∈ (QueueTree.build QueueTree.resolveNamed cappedLeaf).2.toOption,
      (∀ e ∈ twoGrants, e.isRegular t.root = true) ∧
        1 ∈ (System.run { tree := t } twoGrants).forest.queues t.root ∧
        (System.run { tree := t } twoGrants).forest.maxShare 1 = some (.ofMemoryCores 4 0) ∧
        ((System.run { tree := t } twoGrants).forest.usage 1).fitsUnder (.ofMemoryCores 4 0) =
          false := by
    decide +kernel
  have some : (QueueTree.build QueueTree.resolveNamed cappedLeaf).2.toOption.isSome = true := by
    decide +kernel
  cases built : QueueTree.build QueueTree.resolveNamed cappedLeaf with
  | mk asked outcome =>
    rw [built] at facts some
    cases outcome with
    | error e => cases some
    | ok t =>
      obtain ⟨regular, mem, cap, exceeds⟩ := facts t rfl
      refine ⟨asked, t, rfl, regular, ?_⟩
      exact (near_cap_of_run built regular 1 mem _ cap).resolve_left (by simp [exceeds])

end FairShare
