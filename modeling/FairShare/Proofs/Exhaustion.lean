import FairShare.Proofs.Conservation

/-!
When a cycle is done with a machine.  A machine is offered until the limit is reached, nothing is
left of it, or no leaf can be given a container on it; for where no application waits for nothing,
an answer of nothing means that no leaf was eligible.  The report has an entry for every machine on
which something was placed, with the number of the containers and their sum.
-/

namespace FairShare
namespace Forest

section

variable {f g : Forest} {machine : Machine} {q root leaf : QueueId}

/-- No application below a queue waits for nothing. -/
def AsksForSome (f : Forest) (root : QueueId) : Prop :=
  ∀ p ∈ f.queues root, ∀ a ∈ (f.node p).apps, .zero ∉ a.pending

instance (f : Forest) (root : QueueId) : Decidable (f.AsksForSome root) :=
  inferInstanceAs (Decidable (∀ p ∈ f.queues root, ∀ a ∈ (f.node p).apps, .zero ∉ a.pending))

theorem Serves.asksForSome (fg : Serves f g) (asks : f.AsksForSome root) : g.AsksForSome root := by
  intro p hp b hb none
  obtain ⟨a, ha, moved, rest, split, rfl⟩ := (fg.moves p).of_mem hb
  apply asks p (fg.toAlike.mem_queues.1 hp) a ha
  rw [split]
  exact List.mem_append_right moved none

/-- An assignment places one container and tells what it uses, or no leaf is eligible. -/
theorem assign_cases (tree : f.IsTree root) (asks : f.AsksForSome root) (machine : Machine) :
    ((f.assign machine root).2.isZero = true ∧ Reordered f (f.assign machine root).1 ∧
        ∀ leaf ∈ f.queues root, f.eligible machine root leaf = false) ∨
      ((f.assign machine root).2.isZero = false ∧
        ((f.assign machine root).1.containers root).length =
          (f.containers root).length + 1) := by
  obtain ⟨qs, placed, head⟩ := places_assign tree machine
  obtain ⟨added, perm, length, -⟩ :=
    placed.containers tree (mem_queues_of_mayTake tree (f.mem_queues_self root))
  generalize f.assign machine root = answer at placed perm
  obtain ⟨g, granted⟩ := answer
  cases placed with
  | none order =>
    refine .inl ⟨Resource.isZero_zero, order, fun leaf hleaf => ?_⟩
    exact eligible_eq_false_of_find?_walk tree head.symm hleaf
  | last order allowed found used =>
    refine .inr ⟨used, ?_⟩
    rw [perm.length_eq, List.length_append, length, List.length_singleton, Nat.add_comm]
  | next order allowed found rest =>
    rw [order.node_eq (Node.offerable_withChildren machine.available)] at found
    exact absurd found
      (Node.offerable_ne_zero (asks _ (f.queues_eq_ids root ▸ allowed.1)) machine.available)

/-- Whether nothing is left of a machine or no leaf can be given a container on it. -/
def IsDoneWith (f : Forest) (root : QueueId) (machine : Machine) : Prop :=
  machine.available.isZero = true ∨ ∀ leaf ∈ f.queues root, f.eligible machine root leaf = false

/-- How the loop over one machine counts, from a number of containers and for some rounds more. -/
structure Tallies (root : QueueId) (f : Forest) (placed left : Nat)
    (result : Forest × Machine × Nat × Resource) : Prop where
  counted : (result.1.containers root).length + placed = (f.containers root).length + result.2.2.1
  within : result.2.2.1 ≤ placed + left
  ended : result.2.2.1 = placed + left ∨ result.1.IsDoneWith root result.2.1

theorem tallies_fill (tree : f.IsTree root) (asks : f.AsksForSome root) (left : Nat) (m : Machine)
    (placed : Nat) (sum : Resource) :
    Tallies root f placed left (fill root left f m placed sum) := by
  induction left generalizing f m placed sum with
  | zero => exact ⟨rfl, le_rfl, .inl rfl⟩
  | succ left ih =>
    rw [fill]
    split
    case isTrue full => exact ⟨rfl, Nat.le_add_right _ _, .inr (.inl full)⟩
    have served := (assign_accounts tree m).1
    have answered := assign_cases tree asks m
    generalize f.assign m root = answer at served answered ⊢
    obtain ⟨g, granted⟩ := answer
    dsimp only at served answered ⊢
    rcases answered with ⟨nothing, order, idle⟩ | ⟨used, one⟩
    · -- The siblings may be in another order, in which no leaf is eligible either.
      rw [if_pos nothing]
      have still : ∀ leaf ∈ g.queues root, g.eligible m root leaf = false := by
        intro leaf hleaf
        rw [order.eligible tree]
        exact idle leaf (order.alike.mem_queues.1 hleaf)
      have same : (g.containers root).length = (f.containers root).length :=
        (order.containers root).length_eq
      exact ⟨by rw [same], Nat.le_add_right _ _, .inr (.inr still)⟩
    · rw [if_neg (by simp [used])]
      have rest := ih (served.toAlike.isTree tree) (served.asksForSome asks)
        { m with available := m.available.monus granted } (placed + 1) (sum + granted)
      have counted := rest.counted
      rw [one] at counted
      refine ⟨by omega, ?_, ?_⟩
      · exact rest.within.trans_eq (by omega)
      · exact rest.ended.imp_left fun all => all.trans (by omega)

/-- The entry of a report for what was placed on a machine. -/
def entryFor (m : Machine) (placed : List Container) : Option Placement :=
  if placed.isEmpty then none else some ⟨m.id, placed.length, usageOf placed⟩

theorem count_fill (tree : f.IsTree root) (asks : f.AsksForSome root) (limit : Nat) (m : Machine) :
    (fill root limit f m 0 .zero).2.2.1 =
      (f.placedSince (fill root limit f m 0 .zero).1 root).length := by
  have served := (fills_start tree limit m).serves
  have counted := (tallies_fill tree asks limit m 0 .zero).counted
  rw [(served.containers root).length_eq, List.length_append] at counted
  omega

theorem sum_fill (tree : f.IsTree root) (limit : Nat) (m : Machine) :
    (fill root limit f m 0 .zero).2.2.2 =
      usageOf (f.placedSince (fill root limit f m 0 .zero).1 root) := by
  have filled := fills_start tree limit m
  generalize fill root limit f m 0 .zero = result at filled ⊢
  apply Resource.ext_get
  intro d
  have used := filled.inUse d
  have bound := result.2.2.2.get_le d
  rw [filled.serves.inUse, Resource.get_zero] at used
  rw [usageOf, Resource.get_sum]
  omega

theorem entryOf_fill (tree : f.IsTree root) (asks : f.AsksForSome root) (limit : Nat)
    (m : Machine) :
    entryOf (fill root limit f m 0 .zero) =
      entryFor m (f.placedSince (fill root limit f m 0 .zero).1 root) := by
  rw [entryOf, entryFor, count_fill tree asks limit m, sum_fill tree limit m,
    (fills_start tree limit m).id]
  simp only [List.length_eq_zero_iff, List.isEmpty_iff]

end

/-- Where nothing was placed there is no entry, and nothing to add. -/
theorem total_entries (l : List (Machine × List Container)) :
    Resource.sum ((l.filterMap fun e => entryFor e.1 e.2).map Placement.resource) =
      usageOf (l.flatMap Prod.snd) := by
  apply Resource.ext_get
  intro d
  rw [usageOf, Resource.get_sum, Resource.get_sum]
  induction l with
  | nil => rfl
  | cons e l ih =>
    obtain ⟨m, placed⟩ := e
    rw [List.filterMap_cons, List.flatMap_cons, List.map_append, Resource.exact_append]
    cases placed with
    | nil =>
      rw [List.map_nil, Resource.exact_nil, Nat.zero_add]
      exact ih
    | cons c placed =>
      have cut := Resource.get_sum ((c :: placed).map Container.resource) d
      show min (Resource.exact (usageOf (c :: placed) :: _) d) maxAmount =
        min (Resource.exact ((c :: placed).map Container.resource) d + _) maxAmount
      rw [Resource.exact_cons, usageOf, cut]
      omega

/-- The forest when the machine at a place of a list is offered. -/
def whenOffered (root : QueueId) (limit : Nat) (machines : List Machine) (f : Forest) (i : Nat) :
    Forest := (fillAll root limit (machines.take i) f).1

/-- The containers that are placed on the machine at a place of a list. -/
def placedOn (root : QueueId) (limit : Nat) (machines : List Machine) (f : Forest) (i : Nat) :
    List Container :=
  (whenOffered root limit machines f i).placedSince (whenOffered root limit machines f (i + 1)) root

/-- The machines of a list with what is placed on them. -/
def loads (root : QueueId) (limit : Nat) (machines : List Machine) (f : Forest) :
    List (Machine × List Container) :=
  machines.mapIdx fun i m => (m, placedOn root limit machines f i)

section

variable {f : Forest} {root : QueueId} (tree : f.IsTree root) (asks : f.AsksForSome root)
  (limit : Nat) (machines : List Machine)

include tree

theorem tree_whenOffered (i : Nat) : (whenOffered root limit machines f i).IsTree root :=
  tree_fillAll limit (machines.take i) tree

include asks

theorem asksForSome_whenOffered (i : Nat) :
    (whenOffered root limit machines f i).AsksForSome root :=
  (serves_fillAll limit (machines.take i) tree).asksForSome asks

/-- An entry for every machine on which something was placed, in the order of the machines. -/
theorem report_eq_entries :
    (fillAll root limit machines f).2.2 =
      (loads root limit machines f).filterMap fun load => entryFor load.1 load.2 := by
  have entries : (fillEach root limit machines f).map entryOf =
      (loads root limit machines f).map fun load => entryFor load.1 load.2 := by
    apply List.ext_getElem?
    intro i
    rw [List.getElem?_map, getElem?_fillEach, List.getElem?_map, loads, List.getElem?_mapIdx]
    cases hm : machines[i]? with
    | none => rfl
    | some m =>
      have after := fillAll_take_succ root limit machines f hm
      have entry := entryOf_fill (tree_whenOffered tree limit machines i)
        (asksForSome_whenOffered tree asks limit machines i) limit m
      rw [whenOffered, ← after] at entry
      exact congrArg some entry
  calc
    (fillAll root limit machines f).2.2 =
        ((fillEach root limit machines f).map entryOf).filterMap id := by
      rw [report_fillAll, List.filterMap_map]
      rfl
    _ = (loads root limit machines f).filterMap fun load => entryFor load.1 load.2 := by
      rw [entries, List.filterMap_map]
      rfl

/-- What a machine is left with, and why. -/
theorem left_after_placedOn {i : Nat} {m : Machine}
    (left : (fillAll root limit machines f).2.1[i]? = some m) :
    let before := whenOffered root limit machines f
    let placed := placedOn root limit machines f i
    ((before (i + 1)).containers root).Perm (placed ++ (before i).containers root) ∧
      placed.length ≤ limit ∧
      (placed.length = limit ∨ (before (i + 1)).IsDoneWith root m) := by
  intro before placed
  rw [machines_fillAll, List.getElem?_map, getElem?_fillEach] at left
  cases hn : machines[i]? with
  | none =>
    rw [hn] at left
    cases left
  | some n =>
    rw [hn] at left
    cases left
    have after : before (i + 1) = (fill root limit (before i) n 0 .zero).1 :=
      fillAll_take_succ root limit machines f hn
    have tree' := tree_whenOffered tree limit machines i
    have asks' := asksForSome_whenOffered tree asks limit machines i
    have served := (fills_start tree' limit n).serves
    have count := count_fill tree' asks' limit n
    obtain ⟨-, within, ended⟩ := tallies_fill tree' asks' limit n 0 .zero
    rw [count, Nat.zero_add] at within ended
    rw [← after] at served within ended
    exact ⟨served.containers root, within, ended⟩

/-- A cycle is done with a machine when the limit is reached, when nothing is left of it, or when no
leaf is eligible for it as things stand then; and its report tells what was placed on which. -/
theorem runCycle_spends_machines (s : Scheduler) (now : Nat) :
    let result := s.runCycle f root machines now
    let start := s.update f root now
    let before := whenOffered root s.maxPerMachine machines start
    let placed := placedOn root s.maxPerMachine machines start
    let loaded := loads root s.maxPerMachine machines start
    before 0 = start ∧ before machines.length = result.1 ∧
      result.2.2.2.placements = loaded.filterMap (fun load =>
        if load.2.isEmpty then none
        else some ⟨load.1.id, load.2.length, usageOf load.2⟩) ∧
      result.2.2.2.total = usageOf (loaded.flatMap Prod.snd) ∧
      result.2.2.1.length = machines.length ∧
      ∀ (i : Nat) (m : Machine), result.2.2.1[i]? = some m →
        ((before (i + 1)).containers root).Perm (placed i ++ (before i).containers root) ∧
        (placed i).length ≤ s.maxPerMachine ∧
        ((placed i).length = s.maxPerMachine ∨ m.available.isZero = true ∨
          ∀ leaf ∈ (before (i + 1)).queues root,
            (before (i + 1)).eligible m root leaf = false) := by
  intro result start before placed loaded
  have kept := keeps_tick f root s.capacity now
  have tree' := kept.toAlike.isTree tree
  have asks' := kept.serves.asksForSome asks
  have report := report_eq_entries tree' asks' s.maxPerMachine machines
  refine ⟨rfl, ?_, report, ?_, ?_, fun i m => ?_⟩
  · show (fillAll root s.maxPerMachine (machines.take machines.length) start).1 = _
    rw [List.take_length]
    rfl
  · exact (congrArg (fun l => Resource.sum (l.map Placement.resource)) report).trans
      (total_entries loaded)
  · show (fillAll root s.maxPerMachine machines start).2.1.length = _
    rw [machines_fillAll, List.length_map, length_fillEach]
  · exact left_after_placedOn tree' asks' s.maxPerMachine machines

end

/-- A root over a leaf with three requests and over a leaf that is above its cap. -/
def backlog : Forest where
  allocation :=
    { queues := Table.ofList [("root.b", { maxResources := some (.ofMemoryCores 1 0) })] }
  nodes :=
    #[{ name := "root", parent := none, policy := .nameDesc, sink := 0
        body := .composite { children := [1, 2] } },
      { name := "root.a", parent := some 0, policy := .nameDesc, sink := 1
        body := .leaf
          { apps :=
              [{ attempt := ⟨⟨1⟩, 1⟩, user := "ann"
                 pending := [.ofMemoryCores 2 1, .ofMemoryCores 3 1, .ofMemoryCores 6 1] }] } },
      { name := "root.b", parent := some 0, policy := .nameDesc, sink := 2
        body := .leaf
          { apps :=
              [{ attempt := ⟨⟨2⟩, 1⟩, user := "bob", pending := [.ofMemoryCores 1 1]
                 running := [⟨⟨⟨⟨2⟩, 1⟩, 1⟩, .ofMemoryCores 2 1⟩], nextSequence := 2 }] } }]

/-- Two containers on a machine at most. -/
def byTwos : Scheduler := { capacity := .ofMemoryCores 23 18, maxPerMachine := 2 }

def threeMachines : List Machine :=
  [⟨"m", .ofMemoryCores 8 8, none⟩, ⟨"n", .ofMemoryCores 6 1, none⟩,
    ⟨"o", .ofMemoryCores 9 9, none⟩]

/-- The limit is reached on the first machine, nothing is left of the second, and no leaf is
eligible for the third. -/
theorem runCycle_spends_machines_backlog :
    backlog.IsTree 0 ∧ backlog.AsksForSome 0 ∧
      (byTwos.runCycle backlog 0 threeMachines 7).2.2.2.placements =
        [⟨"m", 2, .ofMemoryCores 5 2⟩, ⟨"n", 1, .ofMemoryCores 6 1⟩] ∧
      (byTwos.runCycle backlog 0 threeMachines 7).2.2.1.map Machine.available =
        [.ofMemoryCores 3 6, .zero, .ofMemoryCores 9 9] ∧
      let after := whenOffered 0 byTwos.maxPerMachine threeMachines (byTwos.update backlog 0 7) 3
      ∀ leaf ∈ after.queues 0,
        after.eligible ⟨"o", .ofMemoryCores 9 9, none⟩ 0 leaf = false := by
  have tree : backlog.IsTree 0 := by decide
  have asks : backlog.AsksForSome 0 := by decide +kernel
  refine ⟨tree, asks, by decide +kernel, by decide +kernel, ?_⟩
  have spent := (runCycle_spends_machines tree asks threeMachines byTwos 7).2.2.2.2.2 2
    ⟨"o", .ofMemoryCores 9 9, none⟩ (by decide +kernel)
  obtain ⟨-, -, limit | full | idle⟩ := spent
  · have none : (placedOn 0 byTwos.maxPerMachine threeMachines
        (byTwos.update backlog 0 7) 2).length = 0 := by decide +kernel
    rw [none] at limit
    cases limit
  · cases full
  · exact idle

end Forest
end FairShare
