import FairShare.Proofs.Origin
import FairShare.Proofs.Starvation

/-!
Granting and demand.  A grant turns a request into a container of the same size, so an application
claims the same before and after it.  Where no cap on a composite queue makes a count stop early,
demand is therefore the same after any run of grants, cycles and counts, at every queue.
-/

namespace FairShare

theorem App.Moves.claims {a b : App} (ab : a.Moves b) : b.claims = a.claims := by
  obtain ⟨moved, rest, waiting, rfl⟩ := ab
  have sizes : (moved.mapIdx fun i request =>
      (⟨⟨a.attempt, a.nextSequence + i⟩, request⟩ : Container)).map Container.resource = moved := by
    apply List.ext_getElem?
    intro i
    simp [Option.map_map, Function.comp_def]
  rw [App.claims, App.claims, waiting, List.map_append, sizes, List.append_assoc]

theorem AppsMove.claims {l m : List App} (lm : AppsMove l m) :
    m.flatMap App.claims = l.flatMap App.claims := by
  induction lm with
  | nil => rfl
  | cons ab _ ih => rw [List.flatMap_cons, List.flatMap_cons, ab.claims, ih]

theorem Node.demand_grant {available request : Resource} {n : Node}
    (found : n.offerable available = some request) : (n.grant available).demand = n.demand := by
  obtain ⟨l, before, a, rest, after, hb, -, -, -, -, granted⟩ := grant_of_offerable found
  rw [granted, demand, demand, hb]

namespace Forest

/-- No composite queue has a cap that is a cap at all. -/
def Uncapped (f : Forest) (root : QueueId) : Prop :=
  ∀ c ∈ f.queues root, (f.node c).isComposite = true → ∀ cap ∈ f.maxShare c, cap.isZero = true

instance (f : Forest) (root : QueueId) : Decidable (f.Uncapped root) := by
  unfold Uncapped
  infer_instance

variable {f g : Forest} {root : QueueId}

theorem Serves.fresh (fg : Serves f g) (q : QueueId) : g.fresh q = f.fresh q := by
  apply fresh_congr fg.toAlike
  intro p
  exact (fg.moves p).claims

/-- An offer stores no demand. -/
theorem Places.demand {available granted : Resource} {may : Forest → QueueId → Prop}
    {qs : List QueueId} (placed : Places available may f qs g granted) (q : QueueId) :
    (g.node q).demand = (f.node q).demand := by
  apply placed.preserves (P := fun h => (h.node q).demand = (f.node q).demand)
  case reordered =>
    intro h k same order
    exact (order.node_eq Node.withChildren_demand q).trans same
  case served =>
    intro h p request same _ found
    by_cases hq : q = p
    · subst hq
      rw [node_grant_self found, Node.demand_grant found, same]
    · rw [node_grant_of_ne hq, same]
  case holds => rfl

/-- Filling machines stores no demand, so a report shows what the update of its cycle counted. -/
theorem demand_fillAll (tree : f.IsTree root) (limit : Nat) (machines : List Machine)
    (q : QueueId) : ((fillAll root limit machines f).1.node q).demand = (f.node q).demand := by
  have both : (fillAll root limit machines f).1.IsTree root ∧
      ((fillAll root limit machines f).1.node q).demand = (f.node q).demand := by
    apply fillAll_preserves (P := fun h => h.IsTree root ∧ (h.node q).demand = (f.node q).demand)
    · rintro h m ⟨tree, same⟩
      obtain ⟨qs, placed, -⟩ := places_assign tree m
      exact ⟨placed.serves.toAlike.isTree tree, (placed.demand q).trans same⟩
    · exact ⟨tree, rfl⟩
  exact both.2

theorem demand_runCycle (tree : f.IsTree root) (d : Scheduler) (machines : List Machine)
    (now : Nat) :
    (d.runCycle f root machines now).2.2.2.demand = ((f.updateDemand root).node root).demand := by
  have tree' : (f.tick root d.capacity now).IsTree root :=
    (keeps_tick f root d.capacity now).toAlike.isTree tree
  calc
    (d.runCycle f root machines now).2.2.2.demand =
        ((f.tick root d.capacity now).node root).demand :=
      demand_fillAll tree' d.maxPerMachine machines root
    _ = ((f.updateDemand root).node root).demand := demand_tick f root d.capacity now root

theorem Uncapped.of_serves (uncapped : f.Uncapped root) (fg : Serves f g)
    (kind : ∀ q, (g.node q).isComposite = (f.node q).isComposite) : g.Uncapped root := by
  intro c hc composite
  rw [fg.maxShare]
  rw [kind] at composite
  exact uncapped c (fg.mem_queues.1 hc) composite

/-- Where nothing makes a count stop early, it gives every queue the demand of a fresh count. -/
theorem demand_of_uncapped (tree : f.IsTree root) (uncapped : f.Uncapped root) {q : QueueId}
    (hq : q ∈ f.queues root) : ((f.updateDemand root).node q).demand = f.fresh q := by
  rw [queues_eq_ids] at hq
  obtain ⟨t, ht, rfl⟩ := List.mem_map.1 hq
  rw [fresh, tree.shape_of_mem_parts ht]
  apply demandAt_countDemand_of_mem_parts tree.rooted.follows tree.carries.plain _ ht
  intro p hp
  exact uncapped p (f.queues_eq_ids root ▸ hp)

end Forest

/-- Whether an operation is a pass, a cycle, or an assignment at one of these queues. -/
def Event.isGrant (queues : List QueueId) : Event → Bool
  | .assign q _ => q ∈ queues
  | e => e.isPass

theorem Event.isGrant_iff {queues : List QueueId} {e : Event} :
    e.isGrant queues = true ↔
      e.isPass = true ∧ ∀ q machine, e = .assign q machine → q ∈ queues := by
  cases e <;> simp [isGrant, isPass]

namespace System

/-- What holds between the start of a run of grants and any later moment. -/
structure Grants (s t : System) : Prop where
  root : t.tree.root = s.tree.root
  origin : t.forest.origin = s.forest.origin
  serves : Forest.Serves s.forest t.forest

theorem Grants.perform {s t : System} (tree : s.forest.IsTree s.tree.root) (st : Grants s t)
    {e : Event} (grant : e.isGrant (s.forest.queues s.tree.root) = true) :
    Grants s (t.perform e) := by
  obtain ⟨pass, inside⟩ := Event.isGrant_iff.1 grant
  have settled : ∀ name policy, e ≠ .createLeaf name policy := by
    rintro name policy rfl
    cases pass
  refine
    { root := ?root
      origin := (origin_perform settled).trans st.origin
      serves := ?serves }
  case root => rw [tree_perform settled, st.root]
  case serves =>
    apply pass_preserves_of_keeps (P := fun g => Forest.Serves s.forest g) pass
    · intro f g kept served
      exact served.trans kept.serves
    · intro g q machine place served
      -- An assignment is made at the root or at a queue of the tree, below which there is a tree.
      have mem : q ∈ g.queues s.tree.root := by
        rcases place with rfl | rfl
        · rw [st.root]
          exact g.mem_queues_self _
        · exact served.mem_queues.2 (inside q machine rfl)
      have below := (served.isTree tree).of_mem_queues mem
      exact served.trans (Forest.assign_accounts below machine).1
    · exact st.serves

theorem grants_run {s : System} (tree : s.forest.IsTree s.tree.root) {events : List Event}
    (grants : ∀ e ∈ events, e.isGrant (s.forest.queues s.tree.root) = true) :
    Grants s (s.run events) := by
  apply run_preserves (P := Grants s) (fun t e ok st => st.perform tree ok) grants
  exact ⟨rfl, rfl, .refl _⟩

/-- In a tree in which no composite queue is capped, an update of demand gives every queue the same
demand before a run of assignments, cycles and updates and at any moment of it, and every report on
the way shows this demand of the root. -/
theorem demand_of_grants {s : System} (tree : s.forest.IsTree s.tree.root)
    (uncapped : s.forest.Uncapped s.tree.root) {events : List Event}
    (grants : ∀ e ∈ events, e.isGrant (s.forest.queues s.tree.root) = true) :
    ∀ past, past <+: events →
      let t := s.run past
      t.tree.root = s.tree.root ∧
        (∀ q ∈ s.forest.queues s.tree.root,
          ((t.forest.updateDemand t.tree.root).node q).demand =
            ((s.forest.updateDemand s.tree.root).node q).demand) ∧
        ∀ (d : Scheduler) (machines : List Machine) (now : Nat),
          (d.runCycle t.forest t.tree.root machines now).2.2.2.demand =
            ((s.forest.updateDemand s.tree.root).node s.tree.root).demand := by
  intro past early t
  have st : Grants s t := grants_run tree fun e he => grants e (early.subset he)
  have tree' : t.forest.IsTree s.tree.root := st.serves.isTree tree
  have uncapped' : t.forest.Uncapped s.tree.root :=
    uncapped.of_serves st.serves
      (Forest.field_of_origin Node.isComposite Node.origin_isComposite st.origin)
  have demand : ∀ q ∈ s.forest.queues s.tree.root,
      ((t.forest.updateDemand s.tree.root).node q).demand =
        ((s.forest.updateDemand s.tree.root).node q).demand := by
    intro q hq
    -- Both counts are fresh ones, which see only what applications claim.
    calc
      ((t.forest.updateDemand s.tree.root).node q).demand = t.forest.fresh q :=
        Forest.demand_of_uncapped tree' uncapped' (st.serves.mem_queues.2 hq)
      _ = s.forest.fresh q := st.serves.fresh q
      _ = ((s.forest.updateDemand s.tree.root).node q).demand :=
        (Forest.demand_of_uncapped tree uncapped hq).symm
  rw [st.root]
  refine ⟨rfl, demand, fun d machines now => ?_⟩
  rw [Forest.demand_runCycle tree' d machines now]
  exact demand s.tree.root (s.forest.mem_queues_self s.tree.root)

/-- A leaf with a cap beside one without. -/
def cappedLeaf : Allocation :=
  { queues := Table.ofList
      [("root.a", { maxResources := some (.ofMemoryCores 5 1) }), ("root.b", {})] }

/-- The leaf with a cap asks for more than the cap, in two requests. -/
def askBeyond : List Event := bothAsk ++ [.request 1 ⟨⟨1⟩, 1⟩ (.ofMemoryCores 3 0)]

/-- One assignment at a leaf, a cycle, and a count below the root. -/
def grantAll : List Event :=
  [.assign 1 ⟨"m", .ofMemoryCores 9 9, none⟩, .start (.ofMemoryCores 20 20) false 2,
    .cycle [⟨"n", .ofMemoryCores 9 9, none⟩] 3, .updateDemand 2]

/-- All requests are granted, beyond the cap of the leaf, and the demands are as before. -/
theorem demand_of_grants_sample :
    ∃ asked t, QueueTree.build QueueTree.resolveNamed cappedLeaf = (asked, .ok t) ∧
      let s := run { tree := t } askBeyond
      let g := (s.run grantAll).forest
      s.forest.IsTree s.tree.root ∧ s.forest.Uncapped s.tree.root ∧
        (∀ e ∈ grantAll, e.isGrant (s.forest.queues s.tree.root) = true) ∧
        s.forest.usage t.root = .zero ∧ g.usage t.root = .ofMemoryCores 9 0 ∧
        ((s.forest.updateDemand t.root).node t.root).demand = .ofMemoryCores 7 0 ∧
        ∀ q ∈ s.forest.queues s.tree.root,
          ((g.updateDemand (s.run grantAll).tree.root).node q).demand =
            ((s.forest.updateDemand s.tree.root).node q).demand := by
  have facts : ∀ t ∈ (QueueTree.build QueueTree.resolveNamed cappedLeaf).2.toOption,
      let s := run { tree := t } askBeyond
      let g := (s.run grantAll).forest
      s.forest.IsTree s.tree.root ∧ s.forest.Uncapped s.tree.root ∧
        (∀ e ∈ grantAll, e.isGrant (s.forest.queues s.tree.root) = true) ∧
        s.forest.usage t.root = .zero ∧ g.usage t.root = .ofMemoryCores 9 0 ∧
        ((s.forest.updateDemand t.root).node t.root).demand = .ofMemoryCores 7 0 := by
    decide +kernel
  obtain ⟨asked, t, built, tree, uncapped, grants, before, after, demand⟩ :=
    QueueTree.exists_built (by decide +kernel) facts
  refine ⟨asked, t, built, tree, uncapped, grants, before, after, demand, ?_⟩
  exact (demand_of_grants tree uncapped grants grantAll (List.prefix_refl _)).2.1

end System
end FairShare
