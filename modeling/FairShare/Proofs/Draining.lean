import Mathlib.Data.Prod.Lex
import FairShare.Proofs.Arrival

/-!
Draining a leaf.  In each round a leaf names a container to be given up, and the container is
released there.  It is the newest one of the application that uses most, and of equals, of the one
that came last.  Every round takes away one container and nothing else, so the rounds are over when
as many were made as containers ran.
-/

namespace FairShare

/-- What an application is compared by: the memory that it uses, then the cores. -/
def App.load (a : App) : ℕ ×ₗ ℕ := toLex (a.usage.memory, a.usage.cores)

/-- The application without the containers that it runs. -/
def App.idle (a : App) : App := { a with running := [] }

namespace Leaf

theorem compareUsage_eq (a b : App) : compareUsage a b = compare a.load b.load := rfl

/-- A leaf names the last container of an application with the greatest load, the last of those. -/
theorem victim?_eq_some {l : Leaf} {c : Container} (h : l.victim? = some c) :
    ∃ before a after front, l.apps = before ++ a :: after ∧ a.running = front ++ [c] ∧
      (∀ b ∈ before, b.running ≠ [] → b.load ≤ a.load) ∧
      ∀ b ∈ after, b.running ≠ [] → b.load < a.load := by
  have : Std.TransCmp compareUsage := transCmp_on App.load
  obtain ⟨a, found, newest⟩ := Option.bind_eq_some_iff.1 h
  obtain ⟨earlier, later, split, least, less⟩ := lastGreatest_eq_some compareUsage found
  obtain ⟨front, runs⟩ := List.getLast?_eq_some_iff.1 newest
  -- Among all applications, those that run nothing stand between those that were compared.
  obtain ⟨before, others, apps, rfl, rest⟩ := List.filter_eq_append_iff.1 split
  obtain ⟨idle, after, rfl, none, -, rfl⟩ := List.filter_eq_cons_iff.1 rest
  refine ⟨before ++ idle, a, after, front, by rw [apps, List.append_assoc], runs, ?_, ?_⟩
  · intro b hb busy
    rcases List.mem_append.1 hb with hb | hb
    · have compared := least b (List.mem_filter.2 ⟨hb, by simpa using busy⟩)
      rw [Ordering.isLE_iff_ne_gt, compareUsage_eq] at compared
      exact compare_le_iff_le.1 compared
    · exact absurd (none b hb) (by simpa using busy)
  · intro b hb busy
    have compared := less b (List.mem_filter.2 ⟨hb, by simpa using busy⟩)
    rwa [compareUsage_eq, compare_lt_iff_lt] at compared

theorem victim?_eq_none_iff {l : Leaf} : l.victim? = none ↔ l.running = [] := by
  rcases l.victim_cases with ⟨idle, none⟩ | ⟨a, ha, c, hc, some⟩
  · exact iff_of_true none idle
  · have runs : c ∈ l.running := List.mem_flatMap.2 ⟨a, ha, hc⟩
    exact iff_of_false (by simp [some]) (List.ne_nil_of_mem runs)

end Leaf

/-- An application that runs something and of which no other one that does has a greater load; those
with the same load came before it. -/
structure IsHeaviest (arrival : AttemptId → Nat) (apps : List App) (a : App) : Prop where
  mem : a ∈ apps
  busy : a.running ≠ []
  greatest : ∀ b ∈ apps, b.running ≠ [] → b.load ≤ a.load
  latest : ∀ b ∈ apps, b.running ≠ [] → b.load = a.load → b ≠ a →
    arrival b.attempt < arrival a.attempt

/-- In the order in which applications came, the last with the greatest load is the heaviest. -/
theorem isHeaviest_of_split {arrival : AttemptId → Nat} {before after : List App} {a : App}
    (busy : a.running ≠ [])
    (inOrder : (before ++ a :: after).Pairwise fun a b => arrival a.attempt < arrival b.attempt)
    (least : ∀ b ∈ before, b.running ≠ [] → b.load ≤ a.load)
    (less : ∀ b ∈ after, b.running ≠ [] → b.load < a.load) :
    IsHeaviest arrival (before ++ a :: after) a := by
  refine ⟨by simp, busy, fun b hb runs => ?_, fun b hb runs same other => ?_⟩
  · rw [List.mem_append, List.mem_cons] at hb
    rcases hb with hb | rfl | hb
    · exact least b hb runs
    · exact le_rfl
    · exact (less b hb runs).le
  · rw [List.mem_append, List.mem_cons] at hb
    rcases hb with hb | rfl | hb
    · exact (List.pairwise_append.1 inOrder).2.2 b hb a List.mem_cons_self
    · exact absurd rfl other
    · exact absurd same (less b hb runs).ne

/-- The last container of an application has the highest number. -/
theorem App.Follows.newest {a : App} {asked : List Resource} {c : Container} {front : List Container}
    (h : a.Follows asked) (runs : a.running = front ++ [c]) :
    ∀ d ∈ a.running, d ≠ c → d.id.sequence < c.id.sequence := by
  intro d hd other
  have ascending := h.inOrder
  rw [runs, List.pairwise_append] at ascending
  rw [runs, List.mem_append, List.mem_singleton] at hd
  exact ascending.2.2 d (hd.resolve_right other) c List.mem_cons_self

namespace Forest

/-- What a queue names to be given up and the forest once that was released there, round after
round, as long as something is named and at most so many times. -/
def drain (f : Forest) (q : QueueId) : Nat → List Victim × Forest
  | 0 => ([], f)
  | rounds + 1 =>
    let before := f.drain q rounds
    match before.2.victim? q with
    | none => before
    | some v => (before.1 ++ [v], (before.2.releaseContainer? q v.container).getD before.2)

/-- A round, from one forest to the next: a queue names the newest container of its heaviest
application and releases it, and nothing else that runs there. -/
structure Round (arrival : AttemptId → Nat) (q : QueueId) (f : Forest) (v : Victim) (g : Forest) :
    Prop where
  named : f.victim? q = some v
  queue : v.queue = (f.node q).name
  newest : ∃ a, IsHeaviest arrival (f.node q).apps a ∧ ⟨v.container, v.resource⟩ ∈ a.running ∧
    ∀ c ∈ a.running, c ≠ ⟨v.container, v.resource⟩ → c.id.sequence < v.container.sequence
  released : f.releaseContainer? q v.container = some g
  alone : (f.node q).running.Perm (⟨v.container, v.resource⟩ :: (g.node q).running)

/-- A forest after some rounds: one leaf has changed, and of its applications only what they run. -/
structure Drained (ledger : Ledger) (q : QueueId) (f : Forest) (l : Leaf) (g : Forest) (m : Leaf) :
    Prop where
  body : (g.node q).body = .leaf m
  update : g = f.update q (Node.mapLeaf fun _ => m)
  demand : m.demand = l.demand
  idle : m.apps.map App.idle = l.apps.map App.idle
  records : ledger.Records m.apps

section

variable {f g : Forest} {q : QueueId} {l m : Leaf} {ledger : Ledger} {arrival : AttemptId → Nat}

theorem update_mapLeaf_self (hb : (f.node q).body = .leaf l) :
    f.update q (Node.mapLeaf fun _ => l) = f := by
  have same : (f.node q).mapLeaf (fun _ => l) = f.node q := by
    rw [Node.mapLeaf, hb]
    exact congrArg (fun body => { f.node q with body }) hb.symm
  refine eq_of_node ?_ ?_ (size_update f q _) fun p => ?_
  · rfl
  · rfl
  · rw [node_update]
    split
    case isTrue here => rw [here.1, same]
    case isFalse => rfl

theorem update_mapLeaf_update (f : Forest) (q : QueueId) (m m' : Leaf) :
    (f.update q (Node.mapLeaf fun _ => m)).update q (Node.mapLeaf fun _ => m') =
      f.update q (Node.mapLeaf fun _ => m') := by
  have last (n : Node) : (n.mapLeaf fun _ => m).mapLeaf (fun _ => m') = n.mapLeaf fun _ => m' := by
    cases hb : n.body <;> simp [Node.mapLeaf, hb]
  refine eq_of_node ?_ ?_ ?_ fun p => ?_
  · rfl
  · rfl
  · rw [size_update, size_update, size_update]
  · rw [node_update, node_update, node_update, size_update]
    split
    · exact last _
    · rfl

theorem Drained.start (hb : (f.node q).body = .leaf l) (records : ledger.Records l.apps) :
    Drained ledger q f l f l :=
  ⟨hb, (update_mapLeaf_self hb).symm, rfl, rfl, records⟩

/-- As long as something runs, a round takes one container away. -/
theorem Drained.round (drained : Drained ledger q f l g m) (busy : m.running ≠ [])
    (inOrder : (l.apps.map App.attempt).Pairwise fun a b => arrival a < arrival b) :
    ∃ v h m', Round arrival q g v h ∧ Drained ledger q f l h m' ∧
      m'.running.length + 1 = m.running.length := by
  have here : (g.node q).apps = m.apps := Node.apps_of_leaf drained.body
  obtain ⟨c, chosen⟩ : ∃ c, m.victim? = some c :=
    Option.ne_none_iff_exists'.1 fun none => busy (Leaf.victim?_eq_none_iff.1 none)
  obtain ⟨before, a, after, front, apps, runs, least, less⟩ := Leaf.victim?_eq_some chosen
  have known : q < g.nodes.size := lt_size_of_apps (by simp [here, apps])
  have follows := drained.records.follows a (by simp [apps])
  -- The forest after the round has the leaf without that container.
  let m' : Leaf := { m with apps := before ++ { a with running := front ++ [] } :: after }
  have released : m.release? c.id = some m' := Leaf.release?_of_split drained.records apps runs
  have perm : m.running.Perm (c :: m'.running) := Leaf.running_perm_of_split apps runs rfl
  let h := g.update q (Node.mapLeaf fun _ => m')
  have body : (h.node q).body = .leaf m' := by
    rw [node_update_self g _ known, Node.mapLeaf, drained.body]
  -- The applications are still those of the leaf in the beginning, in the order in which they came.
  have attempts : m.apps.map App.attempt = l.apps.map App.attempt := by
    simpa [Function.comp_def, App.idle] using congrArg (List.map App.attempt) drained.idle
  rw [← attempts, List.pairwise_map, apps] at inOrder
  have heaviest : IsHeaviest arrival (g.node q).apps a := by
    rw [here, apps]
    exact isHeaviest_of_split (by simp [runs]) inOrder least less
  refine ⟨⟨c.id, (g.node q).name, c.resource⟩, h, m', ?_, ?_, ?_⟩
  · refine ⟨?_, rfl, ⟨a, heaviest, by simp [runs], follows.newest runs⟩, ?_, ?_⟩
    · rw [victim_of_leaf drained.body, chosen]
      rfl
    · exact releaseContainer_of_leaf drained.body released
    · rwa [Node.running, Node.running, here, Node.apps_of_leaf body]
  · refine ⟨body, ?_, drained.demand, ?_, drained.records.release released⟩
    · show g.update q _ = _
      rw [drained.update, update_mapLeaf_update]
    · rw [← drained.idle, apps]
      simp [m', App.idle]
  · simpa using perm.length_eq.symm

theorem drain_succ_of_round {n : Nat} {v : Victim} {h : Forest}
    (round : Round arrival q (f.drain q n).2 v h) :
    f.drain q (n + 1) = ((f.drain q n).1 ++ [v], h) := by
  rw [drain, round.named]
  simp only [round.released, Option.getD_some]

theorem drain_succ_of_none {n : Nat} (none : (f.drain q n).2.victim? q = none) :
    f.drain q (n + 1) = f.drain q n := by
  rw [drain, none]

/-- After some rounds, so many containers are gone, as long as there were so many. -/
theorem drained_drain (hb : (f.node q).body = .leaf l) (records : ledger.Records l.apps)
    (inOrder : (l.apps.map App.attempt).Pairwise fun a b => arrival a < arrival b) {n : Nat}
    (within : n ≤ l.running.length) :
    ∃ m, Drained ledger q f l (f.drain q n).2 m ∧ m.running.length + n = l.running.length ∧
      (f.drain q n).1.length = n := by
  induction n with
  | zero => exact ⟨l, .start hb records, rfl, rfl⟩
  | succ n ih =>
    obtain ⟨m, drained, left, named⟩ := ih (Nat.le_of_succ_le within)
    have busy : m.running ≠ [] := List.ne_nil_of_length_pos (by omega)
    obtain ⟨v, h, m', round, drained', less⟩ := drained.round busy inOrder
    rw [drain_succ_of_round round]
    refine ⟨m', drained', by omega, ?_⟩
    rw [List.length_append, named, List.length_singleton]

theorem Drained.runnable (drained : Drained ledger q f l g m) (hb : (f.node q).body = .leaf l)
    (p : QueueId) : (g.node p).runnable = (f.node p).runnable := by
  have length : m.apps.length = l.apps.length := by
    simpa using congrArg List.length drained.idle
  rw [drained.update, node_update]
  split
  case isTrue here => simp [here.1, Node.mapLeaf, Node.runnable, hb, length]
  case isFalse => rfl

/-- A leaf in which nothing runs names nothing and uses nothing. -/
theorem Drained.done (drained : Drained ledger q f l g m) (none : m.running = []) :
    g.victim? q = Option.none ∧ g.usage q = .zero := by
  constructor
  · rw [victim_of_leaf drained.body, Leaf.victim?_eq_none_iff.2 none]
    rfl
  · rw [usage_of_leaf drained.body, Leaf.usage_eq_usageOf]
    exact congrArg usageOf none

/-- Once nothing is named, no round changes anything. -/
theorem drain_eq_of_le {n k : Nat} (none : (f.drain q n).2.victim? q = none) (later : n ≤ k) :
    f.drain q k = f.drain q n := by
  induction k, later using Nat.le_induction with
  | base => rfl
  | succ k _ ih => rw [drain_succ_of_none (ih ▸ none), ih]

end
end Forest

namespace System

/-- A leaf is drained in as many rounds as it runs containers.  Each round takes the newest container
of the application that uses most and was taken in last among those that use so much.  What waits,
the next numbers, the applications and the counts of them stay. -/
theorem drain_of_run {s : System} {q : QueueId} (empty : (s.forest.node q).apps = [])
    (events : List Event) {l : Leaf} (hb : ((s.run events).forest.node q).body = .leaf l) :
    let f := (s.run events).forest
    let rounds := l.running.length
    (∀ i < rounds, ∃ v,
        Forest.Round (s.arrival q events) q (f.drain q i).2 v (f.drain q (i + 1)).2 ∧
          (f.drain q (i + 1)).1 = (f.drain q i).1 ++ [v]) ∧
      (f.drain q rounds).1.length = rounds ∧ (∀ n, rounds ≤ n → f.drain q n = f.drain q rounds) ∧
      (f.drain q rounds).2.victim? q = none ∧ (f.drain q rounds).2.usage q = .zero ∧
      ∀ n, ∃ apps, (f.drain q n).2 = f.update q (Node.mapLeaf fun _ => { l with apps }) ∧
        apps.map App.idle = l.apps.map App.idle ∧
        ∀ p, ((f.drain q n).2.node p).runnable = (f.node p).runnable := by
  intro f rounds
  have here : (f.node q).apps = l.apps := Node.apps_of_leaf hb
  have records : (s.ledger q events).Records l.apps := here ▸ records_run (empty ▸ .nil _) events
  have inOrder := inOrder_of_run empty events
  rw [here] at inOrder
  -- As long as rounds are left, as many containers run; in the end none does.
  have reach {n : Nat} (within : n ≤ rounds) := Forest.drained_drain hb records inOrder within
  obtain ⟨last, drained, left, named⟩ := reach le_rfl
  have none : last.running = [] := List.eq_nil_of_length_eq_zero (by omega)
  obtain ⟨silent, unused⟩ := drained.done none
  have stays {n : Nat} (later : rounds ≤ n) := Forest.drain_eq_of_le silent later
  refine ⟨fun i hi => ?_, named, fun n => stays, silent, unused, fun n => ?_⟩
  · obtain ⟨m, drained, left, -⟩ := reach hi.le
    have busy : m.running ≠ [] := List.ne_nil_of_length_pos (by omega)
    obtain ⟨v, h, -, round, -⟩ := drained.round busy inOrder
    rw [Forest.drain_succ_of_round round]
    exact ⟨v, round, rfl⟩
  · have after : ∃ m, Forest.Drained (s.ledger q events) q f l (f.drain q n).2 m := by
      rcases Nat.le_total n rounds with within | later
      · obtain ⟨m, drained, -⟩ := reach within
        exact ⟨m, drained⟩
      · exact ⟨last, stays later ▸ drained⟩
    obtain ⟨m, drained⟩ := after
    refine ⟨m.apps, ?_, drained.idle, drained.runnable hb⟩
    rw [drained.update, ← drained.demand]

/-- An attempt ends and is submitted again behind another one, which uses as much in the end. -/
def overtaken : List Event :=
  let machine : Machine := ⟨"m", .ofMemoryCores 9 9, none⟩
  [.submit 1 ⟨⟨1⟩, 1⟩ "ann", .submit 1 ⟨⟨2⟩, 1⟩ "bob", .request 1 ⟨⟨1⟩, 1⟩ (.ofMemoryCores 2 1),
    .assign 0 machine, .finish 1 ⟨⟨1⟩, 1⟩, .submit 1 ⟨⟨1⟩, 1⟩ "ann",
    .request 1 ⟨⟨2⟩, 1⟩ (.ofMemoryCores 1 1), .request 1 ⟨⟨2⟩, 1⟩ (.ofMemoryCores 1 0),
    .request 1 ⟨⟨1⟩, 1⟩ (.ofMemoryCores 2 1), .assign 0 machine, .assign 1 machine,
    .assign 0 machine, .request 1 ⟨⟨1⟩, 1⟩ (.ofMemoryCores 5 1)]

/-- What the leaf holds then. -/
def overtakenLeaf : Leaf where
  apps := [
    { attempt := ⟨⟨2⟩, 1⟩
      user := "bob"
      running := [⟨⟨⟨⟨2⟩, 1⟩, 1⟩, .ofMemoryCores 1 1⟩, ⟨⟨⟨⟨2⟩, 1⟩, 2⟩, .ofMemoryCores 1 0⟩]
      nextSequence := 3 },
    { attempt := ⟨⟨1⟩, 1⟩
      user := "ann"
      pending := [.ofMemoryCores 5 1]
      running := [⟨⟨⟨⟨1⟩, 1⟩, 1⟩, .ofMemoryCores 2 1⟩]
      nextSequence := 2 }]

/-- Of the two that use as much, the one that was submitted again loses its container first. -/
theorem drain_of_run_overtaken :
    ∃ asked t, QueueTree.build QueueTree.resolveNamed QueueTree.oneLeaf = (asked, .ok t) ∧
      let s : System := { tree := t }
      let f := (s.run overtaken).forest
      (s.forest.node 1).apps = [] ∧ (f.node 1).body = .leaf overtakenLeaf ∧
        (f.drain 1 3).1.map Victim.container =
          [⟨⟨⟨1⟩, 1⟩, 1⟩, ⟨⟨⟨2⟩, 1⟩, 2⟩, ⟨⟨⟨2⟩, 1⟩, 1⟩] ∧
        (∀ n, 3 ≤ n → f.drain 1 n = f.drain 1 3) ∧ (f.drain 1 3).2.usage 1 = .zero := by
  have facts : ∀ t ∈ (QueueTree.build QueueTree.resolveNamed QueueTree.oneLeaf).2.toOption,
      let s : System := { tree := t }
      let f := (s.run overtaken).forest
      (s.forest.node 1).apps = [] ∧ (f.node 1).body = .leaf overtakenLeaf ∧
        (f.drain 1 3).1.map Victim.container =
          [⟨⟨⟨1⟩, 1⟩, 1⟩, ⟨⟨⟨2⟩, 1⟩, 2⟩, ⟨⟨⟨2⟩, 1⟩, 1⟩] := by
    decide +kernel
  obtain ⟨asked, t, built, empty, hb, victims⟩ :=
    QueueTree.exists_built (by decide +kernel) facts
  obtain ⟨-, -, stays, -, unused, -⟩ := drain_of_run (s := { tree := t }) empty overtaken hb
  exact ⟨asked, t, built, empty, hb, victims, stays, unused⟩

end System
end FairShare
