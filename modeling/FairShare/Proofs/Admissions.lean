import FairShare.Proofs.Reclaiming

/-!
Numbers of containers across admissions.  An attempt that ended may be submitted again, and its
containers are then numbered from one again.  So a number is granted again only after its attempt
was submitted again; and a victim that is released late is the container that was named, or there is
nothing to release, as long as its attempt was not submitted again in between.
-/

namespace FairShare

/-- How an application goes on: its numbers grow, and what it runs anew has one that was still to
come. -/
structure App.Continues (a b : App) : Prop where
  attempt : b.attempt = a.attempt
  sequence : a.nextSequence ≤ b.nextSequence
  fresh : ∀ c ∈ b.running, c ∈ a.running ∨ a.nextSequence ≤ c.id.sequence

theorem App.Continues.refl (a : App) : a.Continues a := ⟨rfl, le_rfl, fun _ => .inl⟩

theorem App.Moves.continues {a b : App} (ab : a.Moves b) : a.Continues b := by
  obtain ⟨moved, rest, -, rfl⟩ := ab
  refine ⟨rfl, Nat.le_add_right _ _, fun c hc => ?_⟩
  rcases List.mem_append.1 hc with hc | hc
  · exact .inl hc
  · -- New containers are numbered from the next number on.
    right
    obtain ⟨i, hi, rfl⟩ := List.mem_mapIdx.1 hc
    exact Nat.le_add_right _ _

/-- A leaf before and after an operation that it was meant for and accepted. -/
inductive Leaf.Accepts (q : QueueId) : Event → Leaf → Leaf → Prop
  | submit {l m : Leaf} {attempt : AttemptId} {user : String}
      (h : l.submit? attempt user = some m) : Accepts q (.submit q attempt user) l m
  | request {l m : Leaf} {attempt : AttemptId} {request : Resource}
      (h : l.request? attempt request = some m) : Accepts q (.request q attempt request) l m
  | finish {l m : Leaf} {attempt : AttemptId} {user : String}
      (h : l.finish? attempt = some (m, user)) : Accepts q (.finish q attempt) l m
  | release {l m : Leaf} {container : ContainerId}
      (h : l.release? container = some m) : Accepts q (.release q container) l m

namespace Leaf

variable {l m : Leaf} {attempt : AttemptId} {user : String}

theorem continues_middle {before after : List App} {a b : App} (ab : a.Continues b) :
    ∀ c ∈ before ++ b :: after, ∃ d ∈ before ++ a :: after, d.Continues c := by
  intro c hc
  rw [List.mem_append, List.mem_cons] at hc
  rcases hc with hc | rfl | hc
  · exact ⟨c, by simp [hc], .refl c⟩
  · exact ⟨a, by simp, ab⟩
  · exact ⟨c, by simp [hc], .refl c⟩

/-- Applications that a leaf holds go on from those that it held, or it was asked to take them. -/
theorem Accepts.continues {q : QueueId} {e : Event} (h : Accepts q e l m) :
    ∀ b ∈ m.apps, (∃ a ∈ l.apps, a.Continues b) ∨
      (∃ user, e = .submit q b.attempt user) ∧ b.running = [] := by
  intro b hb
  cases h with
  | submit h =>
    rw [(submit?_eq_some h).2, List.mem_append, List.mem_singleton] at hb
    rcases hb with hb | rfl
    · exact .inl ⟨b, hb, .refl b⟩
    · exact .inr ⟨⟨_, rfl⟩, rfl⟩
  | @request _ _ _ request h =>
    obtain ⟨before, a, after, held, -, holds⟩ := request?_eq_some h
    rw [held]
    rw [holds] at hb
    have same : a.Continues { a with pending := a.pending ++ [request] } :=
      ⟨rfl, le_rfl, fun _ => .inl⟩
    exact .inl (continues_middle same b hb)
  | finish h =>
    obtain ⟨a, -, e⟩ := Option.map_eq_some_iff.1 h
    cases e
    exact .inl ⟨b, List.eraseP_sublist.subset hb, .refl b⟩
  | @release _ _ container h =>
    obtain ⟨before, a, after, held, -, holds⟩ := release?_eq_some h
    rw [held]
    rw [holds] at hb
    have fewer : a.Continues
        { a with running := a.running.filter fun c => c.id ≠ container } :=
      ⟨rfl, le_rfl, fun _ hc => .inl (List.mem_of_mem_filter hc)⟩
    exact .inl (continues_middle fewer b hb)

end Leaf

namespace Forest

variable {f g : Forest} {p : QueueId}

/-- Where a leaf is replaced, the applications of every other queue stay. -/
theorem apps_mapLeaf {l m : Leaf} (hb : (f.node p).body = .leaf l) (q : QueueId) :
    let g := f.update p (Node.mapLeaf fun _ => m)
    (g.node q).apps = (f.node q).apps ∨
      p = q ∧ (f.node q).apps = l.apps ∧ (g.node q).apps = m.apps := by
  intro g
  by_cases here : q = p ∧ p < f.nodes.size
  · obtain ⟨rfl, known⟩ := here
    have changed : (g.node q).body = .leaf m := by
      rw [node_update_self f _ known, Node.mapLeaf, hb]
    exact .inr ⟨rfl, Node.apps_of_leaf hb, Node.apps_of_leaf changed⟩
  · left
    rw [node_update, if_neg here]

theorem apps_changeLeaf {change : Leaf → Option Leaf} (h : f.changeLeaf? p change = some g)
    (q : QueueId) :
    (g.node q).apps = (f.node q).apps ∨
      p = q ∧ ∃ l m, change l = some m ∧ (f.node q).apps = l.apps ∧ (g.node q).apps = m.apps := by
  obtain ⟨l, m, hb, hm, rfl⟩ := changeLeaf?_eq_some.1 h
  apply (apps_mapLeaf hb q).imp_right
  rintro ⟨here, before, after⟩
  exact ⟨here, l, m, hm, before, after⟩

theorem apps_finish {attempt : AttemptId} {user : String}
    (h : f.finish? p attempt = some (g, user)) (q : QueueId) :
    (g.node q).apps = (f.node q).apps ∨
      p = q ∧ ∃ l m : Leaf, l.finish? attempt = some (m, user) ∧ (f.node q).apps = l.apps ∧
        (g.node q).apps = m.apps := by
  obtain ⟨l, m, hb, hm, rfl⟩ := finish?_eq_some.1 h
  -- Counting out changes composite queues only.
  rw [(keeps_countAbove keeps_countOut _ p).apps]
  apply (apps_mapLeaf hb q).imp_right
  rintro ⟨here, before, after⟩
  exact ⟨here, l, m, hm, before, after⟩

end Forest

namespace System

/-- What an operation that is meant for a leaf does to the applications of a queue. -/
theorem apps_perform_order {e : Event} (order : e.isOrder = true) (s : System) (q : QueueId) :
    ((s.perform e).forest.node q).apps = (s.forest.node q).apps ∨
      s.refuses e = false ∧ ∃ l m, Leaf.Accepts q e l m ∧
        (s.forest.node q).apps = l.apps ∧ ((s.perform e).forest.node q).apps = m.apps := by
  cases refused : s.refuses e with
  | true => exact .inl (by rw [perform_of_refuses refused])
  | false =>
    have accepted {α : Type} {answer : Option α} (h : answer.isNone = false) :
        ∃ g, answer = some g := Option.isSome_iff_exists.1 (Option.isNone_eq_false_iff.1 h)
    cases e with
    | submit p attempt user =>
      obtain ⟨g, h⟩ := accepted refused
      rw [perform, h]
      obtain ⟨changed, taken, rfl⟩ := Option.map_eq_some_iff.1 h
      have counted := (Forest.keeps_countAbove Forest.keeps_countIn changed p).apps q
      rcases Forest.apps_changeLeaf taken q with same | ⟨rfl, l, m, hm, before, after⟩
      · exact .inl (counted.trans same)
      · exact .inr ⟨rfl, l, m, .submit hm, before, counted.trans after⟩
    | request p attempt request =>
      obtain ⟨g, h⟩ := accepted refused
      rw [perform, h]
      apply (Forest.apps_changeLeaf h q).imp_right
      rintro ⟨rfl, l, m, hm, before, after⟩
      exact ⟨rfl, l, m, .request hm, before, after⟩
    | finish p attempt =>
      obtain ⟨⟨g, user⟩, h⟩ := accepted refused
      rw [perform, h]
      apply (Forest.apps_finish h q).imp_right
      rintro ⟨rfl, l, m, hm, before, after⟩
      exact ⟨rfl, l, m, .finish hm, before, after⟩
    | release p container =>
      obtain ⟨g, h⟩ := accepted refused
      rw [perform, h]
      apply (Forest.apps_changeLeaf h q).imp_right
      rintro ⟨rfl, l, m, hm, before, after⟩
      exact ⟨rfl, l, m, .release hm, before, after⟩
    | _ => cases order

end System

/-- A container that was granted, and how often its attempt had been submitted by then. -/
structure Grant where
  admission : Nat
  container : Container
deriving DecidableEq

/-- How often each attempt was taken in by a queue, and what the queue was granted, in order. -/
structure Register where
  admissions : AttemptId → Nat := fun _ => 0
  grants : List Grant := []

namespace System

/-- Whether an operation submits an attempt to a queue that takes it in. -/
def admits (s : System) (q : QueueId) (attempt : AttemptId) : Event → Bool
  | .submit p a user => p = q && a = attempt && !s.refuses (.submit p a user)
  | _ => false

/-- The containers that run in a queue after an operation and did not run there before. -/
def grantedBy (s : System) (q : QueueId) (e : Event) : List Container :=
  ((s.perform e).forest.node q).running.diff (s.forest.node q).running

/-- The register of a queue after an operation. -/
def note (q : QueueId) (s : System) (r : Register) (e : Event) : Register where
  admissions attempt := r.admissions attempt + if s.admits q attempt e then 1 else 0
  grants := r.grants ++ (s.grantedBy q e).map fun c => ⟨r.admissions c.id.attempt, c⟩

def registerFrom (q : QueueId) : System → Register → List Event → Register
  | _, r, [] => r
  | s, r, e :: rest => registerFrom q (s.perform e) (note q s r e) rest

/-- The register of a queue after operations. -/
def register (s : System) (q : QueueId) (events : List Event) : Register :=
  registerFrom q s {} events

variable {s : System} {q : QueueId} {attempt : AttemptId} {e : Event}

theorem admits_iff :
    s.admits q attempt e = true ↔ (∃ user, e = .submit q attempt user) ∧ s.refuses e = false := by
  constructor
  · intro h
    cases e with
    | submit p a user =>
      simp only [admits, Bool.and_eq_true, decide_eq_true_eq, Bool.not_eq_true'] at h
      obtain ⟨⟨rfl, rfl⟩, taken⟩ := h
      exact ⟨⟨user, rfl⟩, taken⟩
    | _ => cases h
  · rintro ⟨⟨user, rfl⟩, taken⟩
    simp [admits, taken]

/-- An attempt that is taken in was not there. -/
theorem absent_of_admits (admits : s.admits q attempt e = true) :
    ∀ a ∈ (s.forest.node q).apps, a.attempt ≠ attempt := by
  obtain ⟨⟨user, rfl⟩, taken⟩ := admits_iff.1 admits
  obtain ⟨g, h⟩ := Option.isSome_iff_exists.1 (Option.isNone_eq_false_iff.1 taken)
  obtain ⟨changed, h, -⟩ := Option.map_eq_some_iff.1 h
  obtain ⟨l, m, hb, hm, -⟩ := Forest.changeLeaf?_eq_some.1 h
  rw [Node.apps_of_leaf hb]
  exact (Leaf.submit?_eq_some hm).1

/-- After an operation every application of a queue goes on from one that was there, or was taken in
and has nothing yet. -/
theorem continues_perform (s : System) (q : QueueId) (e : Event) :
    ∀ b ∈ ((s.perform e).forest.node q).apps,
      (∃ a ∈ (s.forest.node q).apps, a.Continues b) ∨
        s.admits q b.attempt e = true ∧ b.running = [] := by
  intro b hb
  cases order : e.isOrder with
  | false =>
    obtain ⟨a, ha, moved⟩ := (appsMove_perform order q).of_mem hb
    exact .inl ⟨a, ha, moved.continues⟩
  | true =>
    rcases apps_perform_order order s q with same | ⟨taken, l, m, accepts, before, after⟩
    · exact .inl ⟨b, same ▸ hb, .refl b⟩
    · rw [before]
      apply (accepts.continues b (after ▸ hb)).imp_right
      rintro ⟨submitted, empty⟩
      exact ⟨admits_iff.2 ⟨submitted, taken⟩, empty⟩

end System

/-- A register is that of a queue that holds some applications: a number was granted again only
under a later admission, and of the admissions in force only numbers below the next ones were
granted. -/
structure Register.Covers (r : Register) (apps : List App) : Prop where
  apart : r.grants.Pairwise fun g h => g.container.id = h.container.id → g.admission < h.admission
  past : ∀ g ∈ r.grants, 1 ≤ g.admission ∧ g.admission ≤ r.admissions g.container.id.attempt
  opened : ∀ a ∈ apps, 1 ≤ r.admissions a.attempt
  below : ∀ g ∈ r.grants, ∀ a ∈ apps, a.attempt = g.container.id.attempt →
    g.admission = r.admissions a.attempt → g.container.id.sequence < a.nextSequence
  listed : ∀ c ∈ apps.flatMap App.running, ⟨r.admissions c.id.attempt, c⟩ ∈ r.grants

theorem Register.covers_nil : Register.Covers {} [] :=
  ⟨.nil, by simp, by simp, by simp, by simp⟩

namespace System

variable {s : System} {q : QueueId} {e : Event} {r : Register}

/-- What is granted by an operation goes to an application that was there, under a number that it
had not reached. -/
theorem exists_app_of_grantedBy {ledger : Ledger} {c : Container}
    (records : ledger.Records ((s.perform e).forest.node q).apps) (hc : c ∈ s.grantedBy q e) :
    ∃ a ∈ (s.forest.node q).apps, a.attempt = c.id.attempt ∧ a.nextSequence ≤ c.id.sequence := by
  have distinct : ((s.perform e).forest.node q).running.Nodup :=
    (Leaf.nodup_ids (l := ⟨_, .zero⟩) records).of_map
  obtain ⟨runs, new⟩ := (List.Nodup.mem_sdiff_iff distinct).1 hc
  -- It runs in an application that went on, since one that was taken in runs nothing yet.
  obtain ⟨b, hb, hcb⟩ := List.mem_flatMap.1 runs
  rcases continues_perform s q e b hb with ⟨a, ha, ab⟩ | ⟨-, idle⟩
  · refine ⟨a, ha, ?_, ?_⟩
    · rw [← ab.attempt, (records.follows b hb).own c hcb]
    · apply (ab.fresh c hcb).resolve_left
      intro old
      exact new (List.mem_flatMap.2 ⟨a, ha, old⟩)
  · rw [idle] at hcb
    cases hcb

theorem covers_perform {ledger : Ledger} (covers : r.Covers (s.forest.node q).apps)
    (records : ledger.Records ((s.perform e).forest.node q).apps) :
    (note q s r e).Covers ((s.perform e).forest.node q).apps := by
  have ids : (((s.perform e).forest.node q).running.map Container.id).Nodup :=
    Leaf.nodup_ids (l := ⟨_, .zero⟩) records
  have runs {c : Container} (hc : c ∈ s.grantedBy q e) :
      c ∈ ((s.perform e).forest.node q).running := List.diff_subset _ _ hc
  have grown (attempt : AttemptId) : r.admissions attempt ≤ (note q s r e).admissions attempt :=
    Nat.le_add_right _ _
  -- As long as an attempt is there it is not taken in.
  have same {a : App} (ha : a ∈ (s.forest.node q).apps) :
      (note q s r e).admissions a.attempt = r.admissions a.attempt := by
    have stays : s.admits q a.attempt e = false := by
      by_contra taken
      exact absent_of_admits (by simpa using taken) a ha rfl
    simp [note, stays]
  have mem_grants {g : Grant} : g ∈ (note q s r e).grants ↔
      g ∈ r.grants ∨ ∃ c ∈ s.grantedBy q e, ⟨r.admissions c.id.attempt, c⟩ = g := by
    rw [note, List.mem_append, List.mem_map]
  refine
    { apart := ?apart
      past := ?past
      opened := ?opened
      below := ?below
      listed := ?listed }
  case apart =>
    rw [note, List.pairwise_append, List.pairwise_map]
    refine ⟨covers.apart, ?_, ?_⟩
    · -- Containers that are granted at once differ in their numbers.
      have distinct : ((s.grantedBy q e).map Container.id).Nodup :=
        ids.sublist ((List.diff_sublist _ _).map _)
      exact (List.pairwise_map.1 distinct).imp fun ne same => absurd same ne
    · intro g hg h hh id
      obtain ⟨c, hc, rfl⟩ := List.mem_map.1 hh
      obtain ⟨a, ha, own, later⟩ := exists_app_of_grantedBy records hc
      apply lt_of_le_of_ne
      · rw [← id]
        exact (covers.past g hg).2
      · intro admission
        -- Otherwise the number would be below the next one of its application.
        have spent := covers.below g hg a ha (by rw [own, id]) (by rw [own]; exact admission)
        rw [id] at spent
        exact absurd spent (Nat.not_lt.2 later)
  case past =>
    intro g hg
    rcases mem_grants.1 hg with hg | ⟨c, hc, rfl⟩
    · obtain ⟨first, last⟩ := covers.past g hg
      exact ⟨first, last.trans (grown _)⟩
    · obtain ⟨a, ha, own, -⟩ := exists_app_of_grantedBy records hc
      exact ⟨own ▸ covers.opened a ha, grown _⟩
  case opened =>
    intro b hb
    rcases continues_perform s q e b hb with ⟨a, ha, ab⟩ | ⟨taken, -⟩
    · rw [ab.attempt]
      exact (covers.opened a ha).trans (grown _)
    · simp [note, taken]
  case below =>
    intro g hg b hb own admission
    rcases mem_grants.1 hg with hg | ⟨c, hc, rfl⟩
    · rcases continues_perform s q e b hb with ⟨a, ha, ab⟩ | ⟨taken, -⟩
      · rw [ab.attempt] at own admission
        rw [same ha] at admission
        exact (covers.below g hg a ha own admission).trans_le ab.sequence
      · -- The application was taken in, so the admission is later than any that was noted.
        have past := (covers.past g hg).2
        rw [← own] at past
        simp only [note, taken, if_true] at admission
        omega
    · obtain ⟨b', hb', hc'⟩ := List.mem_flatMap.1 (runs hc)
      have follows := records.follows b' hb'
      obtain rfl : b' = b := by
        apply List.inj_on_of_nodup_map records.distinct hb' hb
        rw [own, follows.own c hc']
      obtain ⟨first, last, -⟩ := follows.place c hc'
      have started := follows.started
      show c.id.sequence < b'.nextSequence
      omega
  case listed =>
    intro c hc
    obtain ⟨b, hb, hcb⟩ := List.mem_flatMap.1 hc
    have own : b.attempt = c.id.attempt := ((records.follows b hb).own c hcb).symm
    rcases continues_perform s q e b hb with ⟨a, ha, ab⟩ | ⟨-, idle⟩
    · -- The application was there before, so its admission is the one in force before.
      rw [← own, ab.attempt, same ha, ← ab.attempt, own, mem_grants]
      by_cases old : c ∈ (s.forest.node q).running
      · exact .inl (covers.listed c old)
      · exact .inr ⟨c, (List.Nodup.mem_sdiff_iff ids.of_map).2 ⟨hc, old⟩, rfl⟩
    · rw [idle] at hcb
      cases hcb

/-- The register of a queue that held nothing covers what it holds after operations. -/
theorem covers_run {s : System} {q : QueueId} {ledger : Ledger} {r : Register}
    (covers : r.Covers (s.forest.node q).apps) (records : ledger.Records (s.forest.node q).apps)
    (events : List Event) :
    (registerFrom q s r events).Covers ((s.run events).forest.node q).apps := by
  induction events generalizing s ledger r with
  | nil => exact covers
  | cons e rest ih =>
    have next := records_perform records e
    exact ih (covers_perform covers next) next

theorem registerFrom_append (s : System) (q : QueueId) (r : Register) (before later : List Event) :
    registerFrom q s r (before ++ later) =
      registerFrom q (s.run before) (registerFrom q s r before) later := by
  induction before generalizing s r with
  | nil => rfl
  | cons e rest ih => exact ih (s.perform e) (note q s r e)

/-- What is in a register stays there. -/
theorem grants_registerFrom (s : System) (q : QueueId) (r : Register) (events : List Event) :
    r.grants <+: (registerFrom q s r events).grants := by
  induction events generalizing s r with
  | nil => exact List.prefix_rfl
  | cons e rest ih => exact (List.prefix_append _ _).trans (ih (s.perform e) (note q s r e))

end System

namespace Forest

variable {f : Forest} {q : QueueId} {l : Leaf}

/-- What a leaf names to be given up runs there. -/
theorem victim_mem_running {v : Victim} (hb : (f.node q).body = .leaf l)
    (found : f.victim? q = some v) : ⟨v.container, v.resource⟩ ∈ (f.node q).running := by
  rw [victim_of_leaf hb] at found
  obtain ⟨c, chosen, rfl⟩ := Option.map_eq_some_iff.1 found
  rcases l.victim_cases with ⟨-, none⟩ | ⟨a, ha, c', hc, named⟩
  · rw [none] at chosen
    cases chosen
  · obtain rfl := Option.some.inj (named.symm.trans chosen)
    rw [Node.running, Node.apps_of_leaf hb]
    exact List.mem_flatMap.2 ⟨a, ha, hc⟩

/-- A release that a leaf accepts takes away one container of that number, and nothing else. -/
theorem releaseContainer_cases {ledger : Ledger} (records : ledger.Records (f.node q).apps)
    (id : ContainerId) :
    f.releaseContainer? q id = none ∨
      ∃ l m, (f.node q).body = .leaf l ∧
        f.releaseContainer? q id = some (f.update q (Node.mapLeaf fun _ => m)) ∧
        ∃ c ∈ (f.node q).running, c.id = id ∧ l.running.Perm (c :: m.running) := by
  cases released : f.releaseContainer? q id with
  | none => exact .inl rfl
  | some g =>
    right
    obtain ⟨l, m, hb, hm, rfl⟩ := changeLeaf?_eq_some.1 released
    rw [Node.apps_of_leaf hb] at records
    -- Something runs under the number, or the leaf would refuse.
    obtain ⟨c, hc, rfl⟩ : ∃ c ∈ l.running, c.id = id := by
      by_contra absent
      push Not at absent
      rw [(Leaf.release?_eq_none_iff records id).2 absent] at hm
      cases hm
    obtain ⟨a, ha, hca⟩ := List.mem_flatMap.1 hc
    obtain ⟨before, after, front, back, -, -, alone, perm, -⟩ :=
      Leaf.exists_release records ha hca
    obtain rfl := Option.some.inj (alone.symm.trans hm)
    refine ⟨l, _, hb, rfl, c, ?_, rfl, perm⟩
    rwa [Node.running, Node.apps_of_leaf hb]

end Forest

/-- Under one admission a number was granted once. -/
theorem Register.Covers.eq_of_id {r : Register} {apps : List App} (covers : r.Covers apps)
    {g h : Grant} (hg : g ∈ r.grants) (hh : h ∈ r.grants)
    (id : g.container.id = h.container.id) (admission : g.admission = h.admission) : g = h := by
  by_contra ne
  -- One of the two came first, so its admission would be the earlier one.
  have apart : r.grants.Pairwise fun g h =>
      g.container.id = h.container.id → g.admission ≠ h.admission :=
    covers.apart.imp fun earlier same => (earlier same).ne
  have : Std.Symm fun g h : Grant => g.container.id = h.container.id → g.admission ≠ h.admission :=
    ⟨fun _ _ differ same => (differ same.symm).symm⟩
  exact apart.forall hg hh ne id admission

namespace System

/-- A number is granted again only under a later admission of its attempt, and what runs was granted
under the admission in force.  So as long as the attempt of a victim is not submitted again, its
number is that of the container that was named and of no other, and a late release takes away that
container alone or nothing. -/
theorem grants_of_run {s : System} {q : QueueId} (empty : (s.forest.node q).apps = [])
    (before later : List Event) :
    let r := s.register q (before ++ later)
    let f := (s.run (before ++ later)).forest
    r.grants.Pairwise
        (fun g h => g.container.id = h.container.id → g.admission < h.admission) ∧
      (∀ g ∈ r.grants, 1 ≤ g.admission ∧ g.admission ≤ r.admissions g.container.id.attempt) ∧
      (∀ c ∈ (f.node q).running, ⟨r.admissions c.id.attempt, c⟩ ∈ r.grants) ∧
      ∀ l v, ((s.run before).forest.node q).body = .leaf l →
        (s.run before).forest.victim? q = some v →
        let n := (s.register q before).admissions v.container.attempt
        let c : Container := ⟨v.container, v.resource⟩
        ⟨n, c⟩ ∈ r.grants ∧
          (r.admissions v.container.attempt = n →
            (∀ g ∈ r.grants, g.container.id = v.container → g.admission = n → g.container = c) ∧
            (f.releaseContainer? q v.container = none ∨
              ∃ l' m, (f.node q).body = .leaf l' ∧
                f.releaseContainer? q v.container = some (f.update q (Node.mapLeaf fun _ => m)) ∧
                l'.running.Perm (c :: m.running))) := by
  intro r f
  have start : Ledger.Records (fun _ => []) (s.forest.node q).apps := empty ▸ .nil _
  have blank : Register.Covers {} (s.forest.node q).apps := empty ▸ Register.covers_nil
  have covers : r.Covers (f.node q).apps := covers_run blank start _
  refine ⟨covers.apart, covers.past, covers.listed, fun l v hb found => ?_⟩
  intro n c
  -- The container that was named ran at that time, so it was granted under the admission of then.
  have granted : ⟨n, c⟩ ∈ r.grants := by
    have covers : (s.register q before).Covers ((s.run before).forest.node q).apps :=
      covers_run blank start before
    have noted : (s.register q before).grants <+: r.grants := by
      show _ <+: (registerFrom q s {} (before ++ later)).grants
      rw [registerFrom_append]
      exact grants_registerFrom _ q _ later
    apply noted.subset
    exact covers.listed c (Forest.victim_mem_running hb found)
  refine ⟨granted, fun current => ?_⟩
  have only (g : Grant) (hg : g ∈ r.grants) (id : g.container.id = v.container)
      (admission : g.admission = n) : g.container = c :=
    congrArg Grant.container (covers.eq_of_id hg granted id admission)
  refine ⟨only, ?_⟩
  apply (Forest.releaseContainer_cases (records_run start _) v.container).imp_right
  rintro ⟨l', m, hb', released, d, hd, id, perm⟩
  -- What is released runs, so it was granted under the admission in force.
  obtain rfl : d = c := only ⟨_, d⟩ (covers.listed d hd) id (by rw [id]; exact current)
  exact ⟨l', m, hb', released, perm⟩

/-- An attempt runs a container, ends and is submitted again; then it runs two containers. -/
def readmitted : List Event :=
  let attempt : AttemptId := ⟨⟨1⟩, 1⟩
  let machine : Machine := ⟨"m", .ofMemoryCores 9 9, none⟩
  [.submit 1 attempt "ann", .request 1 attempt (.ofMemoryCores 5 1), .assign 0 machine,
    .finish 1 attempt, .submit 1 attempt "ann", .request 1 attempt (.ofMemoryCores 1 1),
    .request 1 attempt (.ofMemoryCores 2 1), .assign 0 machine, .assign 1 machine]

/-- It runs one more, and its first one is released. -/
def carriedOn : List Event :=
  let attempt : AttemptId := ⟨⟨1⟩, 1⟩
  [.submit 1 attempt "bob", .request 1 attempt (.ofMemoryCores 3 1),
    .assign 0 ⟨"m", .ofMemoryCores 9 9, none⟩, .release 1 ⟨attempt, 1⟩]

/-- The victim of then is released in spite of what was done since, and the newest container
stays. -/
theorem grants_of_run_readmitted :
    ∃ asked t, QueueTree.build QueueTree.resolveNamed QueueTree.oneLeaf = (asked, .ok t) ∧
      let s : System := { tree := t }
      let r := s.register 1 (readmitted ++ carriedOn)
      let f := (s.run (readmitted ++ carriedOn)).forest
      let c : Container := ⟨⟨⟨⟨1⟩, 1⟩, 2⟩, .ofMemoryCores 2 1⟩
      (s.forest.node 1).apps = [] ∧
        (∃ l, ((s.run readmitted).forest.node 1).body = .leaf l) ∧
        (s.run readmitted).forest.victim? 1 = some ⟨c.id, "root.a", c.resource⟩ ∧
        r.admissions c.id.attempt = 2 ∧
        r.grants.map (fun g => (g.admission, g.container.id.sequence)) =
          [(1, 1), (2, 1), (2, 2), (2, 3)] ∧
        (∀ g ∈ r.grants, g.container.id = c.id → g.admission = 2 → g.container = c) ∧
        ∃ l m, (f.node 1).body = .leaf l ∧
          f.releaseContainer? 1 c.id = some (f.update 1 (Node.mapLeaf fun _ => m)) ∧
          l.running.Perm (c :: m.running) := by
  let first (t : QueueTree) : System := run { tree := t } readmitted
  let last (t : QueueTree) : System := run { tree := t } (readmitted ++ carriedOn)
  let book (t : QueueTree) : Register :=
    ({ tree := t } : System).register 1 (readmitted ++ carriedOn)
  let id : ContainerId := ⟨⟨⟨1⟩, 1⟩, 2⟩
  have facts : ∀ t ∈ (QueueTree.build QueueTree.resolveNamed QueueTree.oneLeaf).2.toOption,
      (t.forest.node 1).apps = [] ∧
        (first t).forest.victim? 1 = some ⟨id, "root.a", .ofMemoryCores 2 1⟩ ∧
        ((first t).forest.node 1).isComposite = false ∧
        ((first t).forest.node 1).isScripted = false ∧
        (({ tree := t } : System).register 1 readmitted).admissions id.attempt = 2 ∧
        (book t).admissions id.attempt = 2 ∧
        (book t).grants.map (fun g => (g.admission, g.container.id.sequence)) =
          [(1, 1), (2, 1), (2, 2), (2, 3)] ∧
        (last t).refuses (.release 1 id) = false := by decide +kernel
  obtain ⟨asked, t, built, empty, found, kind, plain, since, now, grants, taken⟩ :=
    QueueTree.exists_built (by decide +kernel) facts
  obtain ⟨l, hb⟩ : ∃ l, ((first t).forest.node 1).body = .leaf l := by
    rcases Node.body_of_not_scripted plain with ⟨c, hb⟩ | leaf
    · simp [Node.isComposite, hb] at kind
    · exact leaf
  obtain ⟨-, -, -, victim⟩ := grants_of_run (s := { tree := t }) empty readmitted carriedOn
  obtain ⟨-, late⟩ := victim l _ hb found
  obtain ⟨only, released⟩ := late (now.trans since.symm)
  refine ⟨asked, t, built, empty, ⟨l, hb⟩, found, now, grants, ?_, ?_⟩
  · intro g hg same admission
    exact only g hg same (admission.trans since.symm)
  · apply released.resolve_left
    intro none
    have refused : (last t).refuses (.release 1 id) = true := by
      rw [refuses, Option.isNone_iff_eq_none]
      exact none
    rw [taken] at refused
    cases refused

/-- A container is named to be given up, its attempt ends, is submitted again and runs another
one. -/
def outlived : List Event :=
  let attempt : AttemptId := ⟨⟨1⟩, 1⟩
  let machine : Machine := ⟨"m", .ofMemoryCores 9 9, none⟩
  [.finish 1 attempt, .submit 1 attempt "ann", .request 1 attempt (.ofMemoryCores 3 1),
    .assign 0 machine]

/-- Across admissions a number is granted twice, and a late release takes away a container that was
not the one named. -/
theorem grants_repeat_numbers :
    ∃ asked t, QueueTree.build QueueTree.resolveNamed QueueTree.oneLeaf = (asked, .ok t) ∧
      let s : System := { tree := t }
      let before := readmitted.take 3
      let u := s.run (before ++ outlived)
      let id : ContainerId := ⟨⟨⟨1⟩, 1⟩, 1⟩
      (s.forest.node 1).apps = [] ∧
        (s.run before).forest.victim? 1 = some ⟨id, "root.a", .ofMemoryCores 5 1⟩ ∧
        ¬ ((s.register 1 (before ++ outlived)).grants.map fun g => g.container.id).Nodup ∧
        (u.forest.node 1).running = [⟨id, .ofMemoryCores 3 1⟩] ∧
        u.refuses (.release 1 id) = false ∧
        ((u.perform (.release 1 id)).forest.node 1).running = [] :=
  QueueTree.exists_built (by decide +kernel) (by decide +kernel)

end System
end FairShare
