import FairShare.Proofs.Assignment
import FairShare.Proofs.Passes

/-!
Nothing is lost in a cycle.  Three ledgers are kept: requests and containers in the applications,
what is available on the machines, and the report.  A grant moves a request within its application;
what the containers use that are placed on a machine is what the machine has less afterwards and
what the report says.  No sum on the way is cut.
-/

namespace FairShare
namespace App

/-- The first requests of an application became containers, in order and under consecutive
sequence numbers. -/
def Moves (a b : App) : Prop :=
  ∃ moved rest, a.pending = moved ++ rest ∧
    b =
      { a with
        pending := rest
        running := a.running ++
          moved.mapIdx fun i request => ⟨⟨a.attempt, a.nextSequence + i⟩, request⟩
        nextSequence := a.nextSequence + moved.length }

theorem moves_iff {a b : App} : a.Moves b ↔ ∃ k ≤ a.pending.length, b = a.served k := by
  constructor
  · rintro ⟨moved, rest, hp, rfl⟩
    exact ⟨moved.length, by simp [hp], by simp [served, hp]⟩
  · rintro ⟨k, hk, rfl⟩
    refine ⟨a.pending.take k, a.pending.drop k, (List.take_append_drop _ _).symm, ?_⟩
    rw [served, List.length_take, Nat.min_eq_left hk]

theorem Moves.refl (a : App) : a.Moves a := moves_iff.2 ⟨0, Nat.zero_le _, (served_zero a).symm⟩

theorem Moves.trans {a b c : App} (ab : a.Moves b) (bc : b.Moves c) : a.Moves c := by
  obtain ⟨k, hk, rfl⟩ := moves_iff.1 ab
  obtain ⟨l, hl, rfl⟩ := moves_iff.1 bc
  rw [length_pending_served] at hl
  exact moves_iff.2 ⟨k + l, by omega, served_served hk⟩

/-- The containers that an application has more than before. -/
def gained (a b : App) : List Container := b.running.drop a.running.length

theorem Moves.running {a b : App} (ab : a.Moves b) : b.running = a.running ++ a.gained b := by
  obtain ⟨moved, rest, -, rfl⟩ := ab
  simp [gained]

end App

/-- Applications one by one, before and after. -/
abbrev AppsMove : List App → List App → Prop := List.Forall₂ App.Moves

theorem AppsMove.refl (l : List App) : AppsMove l l :=
  List.forall₂_same.2 fun a _ => App.Moves.refl a

theorem AppsMove.trans {l m n : List App} (lm : AppsMove l m) (mn : AppsMove m n) :
    AppsMove l n := by
  induction lm generalizing n with
  | nil => exact mn
  | cons ab _ ih =>
    cases mn with
    | cons bc rest => exact .cons (ab.trans bc) (ih rest)

theorem AppsMove.attempts {l m : List App} (lm : AppsMove l m) :
    m.map App.attempt = l.map App.attempt := by
  induction lm with
  | nil => rfl
  | cons ab _ ih =>
    obtain ⟨_, _, -, rfl⟩ := ab
    rw [List.map_cons, List.map_cons, ih]

theorem AppsMove.of_mem {l m : List App} (lm : AppsMove l m) {b : App} (hb : b ∈ m) :
    ∃ a ∈ l, a.Moves b := by
  induction lm with
  | nil => cases hb
  | @cons a _ _ _ ab _ ih =>
    rcases List.mem_cons.1 hb with rfl | hb
    · exact ⟨a, List.mem_cons_self, ab⟩
    · obtain ⟨a', ha', moved⟩ := ih hb
      exact ⟨a', List.mem_cons_of_mem a ha', moved⟩

namespace Forest

/-- The containers that run below a queue in the second forest and not in the first. -/
def placedSince (f g : Forest) (root : QueueId) : List Container :=
  (f.queues root).flatMap fun q =>
    (List.zipWith App.gained (f.node q).apps (g.node q).apps).flatten

/-- The exact amount in one dimension that is in use below a queue. -/
def inUse (f : Forest) (root : QueueId) (dim : String) : Nat :=
  Resource.exact ((f.containers root).map Container.resource) dim

/-- The same queues, and every application moved requests at most. -/
structure Serves (f g : Forest) : Prop extends Alike f g where
  moves : ∀ q, AppsMove (f.node q).apps (g.node q).apps

namespace Serves

variable {f g h : Forest}

theorem refl (f : Forest) : Serves f f := ⟨.refl f, fun _ => .refl _⟩

theorem trans (fg : Serves f g) (gh : Serves g h) : Serves f h :=
  ⟨fg.toAlike.trans gh.toAlike, fun q => (fg.moves q).trans (gh.moves q)⟩

end Serves

theorem Keeps.serves {f g : Forest} (fg : Keeps f g) : Serves f g :=
  ⟨fg.toAlike, fun q => fg.apps q ▸ .refl _⟩

theorem serves_grant {f : Forest} {available request : Resource} {q : QueueId}
    (found : (f.node q).offerable available = some request) :
    Serves f (f.grant available q) where
  toAlike := alike_grant f available q
  moves p := by
    by_cases hp : p = q
    · subst hp
      obtain ⟨l, before, a, rest, after, hb, happs, -, hpend, -, hg⟩ := Node.grant_of_offerable found
      rw [node_grant_self found, hg, Node.apps_of_leaf hb, Node.apps_of_leaf rfl, happs]
      have moved : a.Moves (a.served 1) := App.moves_iff.2 ⟨1, by simp [hpend], rfl⟩
      exact List.rel_append (AppsMove.refl before) (.cons moved (AppsMove.refl after))
    · -- The other queues are not touched.
      rw [node_grant_of_ne hp]
      exact .refl _

namespace Places

variable {available granted : Resource} {may : Forest → QueueId → Prop} {f g : Forest}
  {qs : List QueueId}

theorem serves (placed : Places available may f qs g granted) : Serves f g := by
  apply placed.preserves (P := Serves f)
  · intro g h fg gh
    exact fg.trans gh.keeps.serves
  · intro g q _ fg _ found
    exact fg.trans (serves_grant found)
  · exact .refl f

/-- What is granted is available. -/
theorem fits (placed : Places available may f qs g granted) : granted.fitsIn available = true := by
  induction placed with
  | none order => rfl
  | last order allowed found used =>
    obtain ⟨l, before, a, rest, after, -, -, -, -, fits, -⟩ := Node.grant_of_offerable found
    exact fits
  | next order allowed found rest ih => exact ih

end Places

theorem running_perm_of_appsMove {l m : List App} (lm : AppsMove l m) :
    (m.flatMap App.running).Perm
      ((List.zipWith App.gained l m).flatten ++ l.flatMap App.running) := by
  induction lm with
  | nil => exact .refl _
  | @cons a b l m ab _ ih =>
    rw [List.flatMap_cons, List.zipWith_cons_cons, List.flatten_cons, List.flatMap_cons, ab.running]
    calc
      List.Perm _ (a.gained b ++ a.running ++
          ((List.zipWith App.gained l m).flatten ++ l.flatMap App.running)) :=
        List.perm_append_comm.append ih
      List.Perm _ (a.gained b ++ (List.zipWith App.gained l m).flatten ++
          (a.running ++ l.flatMap App.running)) := by
        rw [List.append_assoc, List.append_assoc]
        exact (List.perm_append_comm_assoc _ _ _).append_left _

/-- What runs afterwards is what ran before and what was placed since. -/
theorem Serves.containers {f g : Forest} (fg : Serves f g) (root : QueueId) :
    (g.containers root).Perm (f.placedSince g root ++ f.containers root) := by
  have each (q : QueueId) : (g.node q).running.Perm
      ((List.zipWith App.gained (f.node q).apps (g.node q).apps).flatten ++ (f.node q).running) :=
    running_perm_of_appsMove (fg.moves q)
  calc
    List.Perm _ (g.containersIn (f.queues root)) := fg.toAlike.containers root
    List.Perm _ ((f.queues root).flatMap fun q =>
        (List.zipWith App.gained (f.node q).apps (g.node q).apps).flatten ++
          (f.node q).running) := List.Perm.flatMap_left _ fun q _ => each q
    List.Perm _ (f.placedSince g root ++ f.containers root) :=
      (List.flatMap_append_perm _ _ _).symm

theorem Serves.inUse {f g : Forest} (fg : Serves f g) (root : QueueId) (dim : String) :
    g.inUse root dim =
      f.inUse root dim + Resource.exact ((f.placedSince g root).map Container.resource) dim := by
  rw [Forest.inUse, Resource.exact_perm ((fg.containers root).map _), List.map_append,
    Resource.exact_append, Nat.add_comm]
  rfl

variable {root : QueueId}

/-- One assignment: what it gives is available, and is what is in use more than before. -/
theorem assign_accounts {f : Forest} (tree : f.IsTree root) (machine : Machine) :
    Serves f (f.assign machine root).1 ∧
      (f.assign machine root).2.fitsIn machine.available = true ∧
      ∀ d, (f.assign machine root).1.inUse root d =
        (f.assign machine root).2.get d + f.inUse root d := by
  obtain ⟨qs, placed, -⟩ := places_assign tree machine
  obtain ⟨added, hperm, -, total⟩ :=
    placed.containers tree (mem_queues_of_mayTake tree (f.mem_queues_self root))
  refine ⟨placed.serves, placed.fits, fun d => ?_⟩
  rw [inUse, Resource.exact_perm (hperm.map _), List.map_append, Resource.exact_append, total]
  rfl

theorem assign_of_reserved {f : Forest} (tree : f.IsTree root) {machine : Machine}
    (reserved : machine.reserved.isSome = true) : f.assign machine root = (f, .zero) := by
  have refused : f.accepts machine (f.shape root) = false := by
    rw [accepts_shape, Bool.and_eq_false_iff]
    exact .inl (by simpa using reserved)
  rw [assign]
  generalize hs : f.shape root = s at refused
  cases s with
  | node q below => exact offer_of_refused (hs ▸ tree.carries) refused

/-- What an assignment to any machine preserves, the loop over one machine preserves. -/
theorem fill_preserves {P : Forest → Prop} (each : ∀ f m, P f → P (f.assign m root).1)
    {f : Forest} {n placed : Nat} {m : Machine} {sum : Resource} (holds : P f) :
    P (fill root n f m placed sum).1 := by
  induction n generalizing f m placed sum with
  | zero => exact holds
  | succ n ih =>
    rw [fill]
    split
    · exact holds
    have next := each f m holds
    generalize f.assign m root = answer at next
    obtain ⟨g, granted⟩ := answer
    dsimp only
    split
    · exact next
    · exact ih next

/-- What the report says of a machine that was filled. -/
def entryOf (result : Forest × Machine × Nat × Resource) : Option Placement :=
  if result.2.2.1 = 0 then none else some ⟨result.2.1.id, result.2.2.1, result.2.2.2⟩

theorem fillAll_cons (root : QueueId) (limit : Nat) (m : Machine) (rest : List Machine)
    (f : Forest) :
    fillAll root limit (m :: rest) f =
      let filled := fill root limit f m 0 .zero
      let (g, machines, placements) := fillAll root limit rest filled.1
      (g, filled.2.1 :: machines, (entryOf filled).toList ++ placements) := by
  rw [fillAll]
  generalize fill root limit f m 0 .zero = filled
  obtain ⟨g, m', placed, sum⟩ := filled
  dsimp only [entryOf]
  split <;> rfl

theorem fillAll_preserves {P : Forest → Prop} (each : ∀ f m, P f → P (f.assign m root).1)
    {f : Forest} {limit : Nat} {machines : List Machine} (holds : P f) :
    P (fillAll root limit machines f).1 := by
  induction machines generalizing f with
  | nil => exact holds
  | cons m rest ih =>
    rw [fillAll_cons]
    exact ih (fill_preserves each holds)

theorem serves_fillAll (limit : Nat) (machines : List Machine) {f : Forest}
    (tree : f.IsTree root) : Serves f (fillAll root limit machines f).1 := by
  apply fillAll_preserves (P := Serves f)
  · intro g m fg
    exact fg.trans (assign_accounts (fg.toAlike.isTree tree) m).1
  · exact .refl f

/-- How the loop over one machine goes on from a count and a sum. -/
structure Fills (root : QueueId) (f : Forest) (m : Machine) (placed : Nat) (sum : Resource)
    (result : Forest × Machine × Nat × Resource) : Prop where
  serves : Serves f result.1
  inUse : ∀ d, result.1.inUse root d + sum.get d = f.inUse root d + result.2.2.2.get d
  available : ∀ d, result.2.2.2.get d + result.2.1.available.get d = sum.get d + m.available.get d
  id : result.2.1.id = m.id
  reserved : result.2.1.reserved = m.reserved
  counted : placed ≤ result.2.2.1
  uncounted : result.2.2.1 = placed → result.2.2.2 = sum

theorem fills_self (root : QueueId) (f : Forest) (m : Machine) (placed : Nat) (sum : Resource) :
    Fills root f m placed sum (f, m, placed, sum) :=
  ⟨.refl f, fun _ => rfl, fun _ => rfl, rfl, rfl, le_rfl, fun _ => rfl⟩

/-- One round of the loop that grants something, and the rounds after it. -/
theorem Fills.step {f g : Forest} {m : Machine} {placed : Nat} {sum granted : Resource}
    {result : Forest × Machine × Nat × Resource}
    (room : ∀ d, sum.get d + m.available.get d ≤ maxAmount) (served : Serves f g)
    (fits : ∀ d, granted.get d ≤ m.available.get d)
    (used : ∀ d, g.inUse root d = granted.get d + f.inUse root d)
    (rest : Fills root g { m with available := m.available.monus granted } (placed + 1)
      (sum + granted) result) :
    Fills root f m placed sum result := by
  have added (d : String) : (sum + granted).get d = sum.get d + granted.get d :=
    Resource.get_add_of_le ((Nat.add_le_add_left (fits d) _).trans (room d))
  have taken (d : String) :
      granted.get d + (m.available.monus granted).get d = m.available.get d :=
    Resource.get_add_get_monus (fits d)
  have counted : placed + 1 ≤ result.2.2.1 := rest.counted
  refine
    { serves := served.trans rest.serves
      inUse := ?inUse
      available := ?available
      id := rest.id
      reserved := rest.reserved
      counted := by omega
      uncounted := fun h => by omega }
  case inUse =>
    intro d
    have later := rest.inUse d
    rw [added, used] at later
    omega
  case available =>
    intro d
    have later := rest.available d
    rw [added, Nat.add_assoc, taken] at later
    exact later

/-- The sum and what is left stay within bounds together, so neither is ever cut. -/
theorem fills_fill {f : Forest} (tree : f.IsTree root) (n : Nat) {m : Machine} {placed : Nat}
    {sum : Resource} (room : ∀ d, sum.get d + m.available.get d ≤ maxAmount) :
    Fills root f m placed sum (fill root n f m placed sum) := by
  induction n generalizing f m placed sum with
  | zero => exact fills_self root f m placed sum
  | succ n ih =>
    rw [fill]
    split
    · exact fills_self root f m placed sum
    obtain ⟨served, fits, used⟩ := assign_accounts tree m
    generalize f.assign m root = answer at served fits used ⊢
    obtain ⟨g, granted⟩ := answer
    dsimp only at served fits used ⊢
    have fits := Resource.fitsIn_iff.1 fits
    split
    · next hz =>
      -- An answer of nothing ends the loop; requests for nothing may have been granted.
      have same (d : String) : g.inUse root d = f.inUse root d := by
        rw [used, Resource.get_eq_zero_of_isZero hz, Nat.zero_add]
      exact ⟨served, fun d => by rw [same], fun _ => rfl, rfl, rfl, le_rfl, fun _ => rfl⟩
    · have room' (d : String) :
          (sum + granted).get d + (m.available.monus granted).get d ≤ maxAmount := by
        have taken := Resource.get_add_get_monus (fits d)
        rw [Resource.get_add_of_le ((Nat.add_le_add_left (fits d) _).trans (room d)), Nat.add_assoc,
          taken]
        exact room d
      exact .step room served fits used (ih (served.toAlike.isTree tree) room')

theorem fills_start {f : Forest} (tree : f.IsTree root) (limit : Nat) (m : Machine) :
    Fills root f m 0 .zero (fill root limit f m 0 .zero) := by
  refine fills_fill tree limit fun d => ?_
  rw [Resource.get_zero, Nat.zero_add]
  exact m.available.get_le d

/-- The loop over a machine that is reserved or full does nothing. -/
theorem fill_of_closed {f : Forest} (tree : f.IsTree root) {m : Machine}
    (closed : m.reserved.isSome = true ∨ m.available.isZero = true) (n placed : Nat)
    (sum : Resource) : fill root n f m placed sum = (f, m, placed, sum) := by
  cases n with
  | zero => rfl
  | succ n =>
    rw [fill]
    rcases closed with reserved | full
    · simp [assign_of_reserved tree reserved, Resource.isZero_zero]
    · simp [full]

/-- What the entry of a report says was placed on a machine. -/
def reported (entry : Option Placement) : Resource := entry.elim .zero Placement.resource

/-- The three ledgers over the loop over one machine, from the forest and the machine before to
those after. -/
structure Accounts (root : QueueId) (f g : Forest) (m m' : Machine) (entry : Option Placement) :
    Prop where
  moves : ∀ q, AppsMove (f.node q).apps (g.node q).apps
  named : ∀ e ∈ entry, e.machine = m.id
  exact : ∀ d, (reported entry).get d =
    Resource.exact ((f.placedSince g root).map Container.resource) d
  fits : (reported entry).fitsIn m.available = true
  left : ∀ d, m'.available.get d = m.available.get d - (reported entry).get d
  kept : m'.id = m.id ∧ m'.reserved = m.reserved
  closed : m.reserved.isSome = true ∨ m.available.isZero = true → m' = m
  /-- Whatever is granted in a round of the loop is still available then. -/
  within : ∀ k, let before := fill root k f m 0 .zero
    (before.1.assign before.2.1 root).2.fitsIn before.2.1.available = true

theorem accounts_fill {f : Forest} (tree : f.IsTree root) (limit : Nat) (m : Machine) :
    Accounts root f (fill root limit f m 0 .zero).1 m (fill root limit f m 0 .zero).2.1
      (entryOf (fill root limit f m 0 .zero)) := by
  have closed := fun h => congrArg (fun r => r.2.1) (fill_of_closed tree (m := m) h limit 0 .zero)
  have filled := fills_start tree limit m
  generalize fill root limit f m 0 .zero = result at filled closed ⊢
  have total : reported (entryOf result) = result.2.2.2 := by
    rw [entryOf]
    split
    · next h => exact (filled.uncounted h).symm
    · rfl
  have available (d : String) :
      result.2.2.2.get d + result.2.1.available.get d = m.available.get d := by
    have := filled.available d
    rwa [Resource.get_zero, Nat.zero_add] at this
  refine
    { moves := filled.serves.moves
      named := ?named
      exact := fun d => ?exact
      fits := Resource.fitsIn_iff.2 fun d => ?fits
      left := fun d => ?left
      kept := ⟨filled.id, filled.reserved⟩
      closed := closed
      within := fun k => ?within }
  case named =>
    intro e he
    rw [entryOf] at he
    split at he
    · cases he
    · cases he
      exact filled.id
  case exact =>
    have used := filled.inUse d
    rw [filled.serves.inUse, Resource.get_zero] at used
    rw [total]
    omega
  case fits =>
    rw [total]
    calc
      result.2.2.2.get d ≤ result.2.2.2.get d + result.2.1.available.get d := Nat.le_add_right _ _
      _ = m.available.get d := available d
  case left => rw [total, ← available d, Nat.add_sub_cancel_left]
  case within =>
    -- After any number of rounds there is still a tree, so the next round is as the first.
    have later := (fills_start tree k m).serves.toAlike.isTree tree
    exact (assign_accounts later _).2.1

/-- What the loops over machines give, one machine after the other. -/
def fillEach (root : QueueId) (limit : Nat) :
    List Machine → Forest → List (Forest × Machine × Nat × Resource)
  | [], _ => []
  | m :: rest, f =>
    let filled := fill root limit f m 0 .zero
    filled :: fillEach root limit rest filled.1

section

variable (root : QueueId) (limit : Nat) (machines : List Machine) (f : Forest)

theorem machines_fillAll :
    (fillAll root limit machines f).2.1 =
      (fillEach root limit machines f).map fun filled => filled.2.1 := by
  induction machines generalizing f with
  | nil => rfl
  | cons m rest ih => rw [fillAll_cons, fillEach, List.map_cons, ← ih]

theorem report_fillAll :
    (fillAll root limit machines f).2.2 = (fillEach root limit machines f).filterMap entryOf := by
  induction machines generalizing f with
  | nil => rfl
  | cons m rest ih =>
    rw [fillAll_cons, fillEach, List.filterMap_cons, ← ih]
    dsimp only
    cases entryOf (fill root limit f m 0 .zero) <;> rfl

/-- The forest before a machine is the one after the machines before it. -/
theorem getElem?_fillEach (i : Nat) :
    (fillEach root limit machines f)[i]? = machines[i]?.map fun m =>
      fill root limit (fillAll root limit (machines.take i) f).1 m 0 .zero := by
  induction machines generalizing f i with
  | nil => rfl
  | cons m rest ih =>
    cases i with
    | zero => rfl
    | succ i =>
      rw [fillEach, List.getElem?_cons_succ, List.getElem?_cons_succ, ih, List.take_succ_cons,
        fillAll_cons]

theorem fillAll_take_succ {i : Nat} {m : Machine} (hm : machines[i]? = some m) :
    (fillAll root limit (machines.take (i + 1)) f).1 =
      (fill root limit (fillAll root limit (machines.take i) f).1 m 0 .zero).1 := by
  induction machines generalizing f i with
  | nil => cases hm
  | cons n rest ih =>
    rw [List.take_succ_cons, fillAll_cons]
    cases i with
    | zero =>
      obtain rfl : n = m := by simpa using hm
      rfl
    | succ i =>
      rw [List.take_succ_cons, fillAll_cons]
      exact ih _ hm

end

theorem length_fillEach (limit : Nat) (machines : List Machine) (f : Forest) :
    (fillEach root limit machines f).length = machines.length := by
  induction machines generalizing f with
  | nil => rfl
  | cons m rest ih => rw [fillEach, List.length_cons, ih, List.length_cons]

theorem tree_fillAll (limit : Nat) (machines : List Machine) {f : Forest} (tree : f.IsTree root) :
    (fillAll root limit machines f).1.IsTree root :=
  (serves_fillAll limit machines tree).toAlike.isTree tree

theorem accounts_fillAll (limit : Nat) (machines : List Machine) {f : Forest}
    (tree : f.IsTree root) :
    ∃ entries : List (Option Placement),
      (fillAll root limit machines f).2.2 = entries.filterMap id ∧
        entries.length = machines.length ∧
        (fillAll root limit machines f).2.1.length = machines.length ∧
        ∀ (i : Nat) (m m' : Machine) (entry : Option Placement), machines[i]? = some m →
          (fillAll root limit machines f).2.1[i]? = some m' → entries[i]? = some entry →
          Accounts root (fillAll root limit (machines.take i) f).1
            (fillAll root limit (machines.take (i + 1)) f).1 m m' entry := by
  rw [machines_fillAll, report_fillAll]
  refine ⟨(fillEach root limit machines f).map entryOf, by rw [List.filterMap_map]; rfl, ?_, ?_, ?_⟩
  · rw [List.length_map, length_fillEach]
  · rw [List.length_map, length_fillEach]
  · intro i m m' entry hm hm' hentry
    rw [List.getElem?_map, getElem?_fillEach, hm] at hm' hentry
    cases hm'
    cases hentry
    rw [fillAll_take_succ root limit machines f hm]
    exact accounts_fill (tree_fillAll limit (machines.take i) tree) limit m

/-- A cycle moves requests and loses none, takes from the machines exactly what it places on them,
and reports that. -/
theorem runCycle_conserves {f : Forest} (tree : f.IsTree root) (s : Scheduler)
    (machines : List Machine) (now : Nat) :
    let result := s.runCycle f root machines now
    let before (i : Nat) : Forest :=
      (fillAll root s.maxPerMachine (machines.take i) (s.update f root now)).1
    (∀ q, AppsMove (f.node q).apps (result.1.node q).apps) ∧
      (∀ q, ((before 0).node q).apps = (f.node q).apps) ∧ before machines.length = result.1 ∧
      ∃ entries : List (Option Placement), result.2.2.2.placements = entries.filterMap id ∧
        entries.length = machines.length ∧ result.2.2.1.length = machines.length ∧
        ∀ (i : Nat) (m m' : Machine) (entry : Option Placement), machines[i]? = some m →
          result.2.2.1[i]? = some m' → entries[i]? = some entry →
          Accounts root (before i) (before (i + 1)) m m' entry := by
  have kept := keeps_tick f root s.capacity now
  have tree' := kept.toAlike.isTree tree
  have served := serves_fillAll s.maxPerMachine machines tree'
  refine ⟨(kept.serves.trans served).moves, kept.apps, ?_, ?_⟩
  · show (fillAll root s.maxPerMachine (machines.take machines.length) _).1 = _
    rw [List.take_length]
    rfl
  · exact accounts_fillAll s.maxPerMachine machines tree'

/-- A machine that takes the only request and a reserved one that is left alone. -/
theorem runCycle_conserves_sample :
    sample.IsTree 0 ∧
      ∀ q, AppsMove (sample.node q).apps
        ((({ capacity := .ofMemoryCores 9 9 } : Scheduler).runCycle sample 0
          [⟨"m", .ofMemoryCores 8 8, none⟩, ⟨"n", .ofMemoryCores 8 8, some ⟨⟨⟨1⟩, 1⟩, 1⟩⟩] 7).1.node
            q).apps :=
  ⟨by decide, (runCycle_conserves (by decide : sample.IsTree 0) { capacity := .ofMemoryCores 9 9 }
    [⟨"m", .ofMemoryCores 8 8, none⟩, ⟨"n", .ofMemoryCores 8 8, some ⟨⟨⟨1⟩, 1⟩, 1⟩⟩] 7).1⟩

end Forest
end FairShare
