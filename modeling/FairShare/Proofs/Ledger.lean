import Mathlib.Logic.Function.Basic
import FairShare.Proofs.Creation
import FairShare.Proofs.Shedding

/-!
Requests are served in the order in which they were made.  A ledger beside a queue keeps, for every
attempt, the requests that it made since it was last submitted.  What an application waits for is
its entry less a front part, and every container that it still runs is an element of that part,
under the number of its place.
-/

namespace FairShare

/-- The requests that each attempt made, in order. -/
abbrev Ledger := AttemptId → List Resource

namespace Ledger

/-- The ledger after an attempt was submitted. -/
def opened (ledger : Ledger) (attempt : AttemptId) : Ledger := Function.update ledger attempt []

/-- The ledger after an attempt made a request. -/
def entered (ledger : Ledger) (attempt : AttemptId) (request : Resource) : Ledger :=
  Function.update ledger attempt (ledger attempt ++ [request])

end Ledger

/-- An application holds what remains of the requests it made: those from its next sequence number
on wait, and a container runs under the place of its request. -/
structure App.Follows (a : App) (asked : List Resource) : Prop where
  started : 1 ≤ a.nextSequence
  within : a.nextSequence ≤ asked.length + 1
  pending : a.pending = asked.drop (a.nextSequence - 1)
  own : ∀ c ∈ a.running, c.id.attempt = a.attempt
  place : ∀ c ∈ a.running, 1 ≤ c.id.sequence ∧ c.id.sequence ≤ a.nextSequence - 1 ∧
    asked[c.id.sequence - 1]? = some c.resource
  inOrder : a.running.Pairwise fun c d => c.id.sequence < d.id.sequence

namespace App.Follows

variable {a : App} {asked : List Resource}

theorem submitted (attempt : AttemptId) (user : String) :
    App.Follows { attempt, user } [] where
  started := le_rfl
  within := le_rfl
  pending := rfl
  own := by simp
  place := by simp
  inOrder := .nil

theorem request (h : a.Follows asked) (request : Resource) :
    App.Follows { a with pending := a.pending ++ [request] } (asked ++ [request]) where
  started := h.started
  within := by
    rw [List.length_append]
    exact h.within.trans (Nat.le_add_right _ _)
  pending := by
    have served : a.nextSequence - 1 ≤ asked.length := Nat.sub_le_of_le_add h.within
    rw [List.drop_append_of_le_length served, h.pending]
  own := h.own
  place c hc := by
    obtain ⟨first, last, here⟩ := h.place c hc
    refine ⟨first, last, ?_⟩
    rw [List.getElem?_append_left (List.getElem?_eq_some_iff.1 here).1, here]
  inOrder := h.inOrder

theorem release (h : a.Follows asked) (keep : Container → Bool) :
    App.Follows { a with running := a.running.filter keep } asked where
  started := h.started
  within := h.within
  pending := h.pending
  own c hc := h.own c (List.mem_of_mem_filter hc)
  place c hc := h.place c (List.mem_of_mem_filter hc)
  inOrder := h.inOrder.sublist List.filter_sublist

/-- The first request that waits becomes the container of the next number. -/
theorem served (h : a.Follows asked) (waits : 1 ≤ a.pending.length) :
    (a.served 1).Follows asked := by
  obtain ⟨request, rest, split⟩ := List.exists_cons_of_length_pos waits
  have started := h.started
  have here : asked[a.nextSequence - 1]? = some request := by
    rw [← List.head?_drop, ← h.pending, split]
    rfl
  have known : a.nextSequence - 1 < asked.length := (List.getElem?_eq_some_iff.1 here).1
  have running : (a.served 1).running =
      a.running ++ [⟨⟨a.attempt, a.nextSequence⟩, request⟩] := by
    simp [App.served, split]
  have next : (a.served 1).nextSequence - 1 = a.nextSequence := Nat.add_sub_cancel _ 1
  refine
    { started := Nat.le_add_left 1 _
      within := ?within
      pending := ?pending
      own := ?own
      place := ?place
      inOrder := ?inOrder }
  case within =>
    show a.nextSequence + 1 ≤ asked.length + 1
    omega
  case pending =>
    show a.pending.drop 1 = _
    rw [next, h.pending, List.drop_drop, Nat.sub_add_cancel started]
  case own =>
    intro c hc
    rw [running, List.mem_append, List.mem_singleton] at hc
    rcases hc with hc | rfl
    · exact h.own c hc
    · rfl
  case place =>
    intro c hc
    rw [running, List.mem_append, List.mem_singleton] at hc
    rw [next]
    rcases hc with hc | rfl
    · obtain ⟨first, last, there⟩ := h.place c hc
      exact ⟨first, last.trans (Nat.sub_le _ _), there⟩
    · exact ⟨started, le_rfl, here⟩
  case inOrder =>
    rw [running, List.pairwise_append]
    refine ⟨h.inOrder, List.pairwise_singleton _ _, fun c hc d hd => ?_⟩
    obtain ⟨-, last, -⟩ := h.place c hc
    rw [List.mem_singleton.1 hd]
    show c.id.sequence < a.nextSequence
    omega

theorem moves (h : a.Follows asked) {b : App} (ab : a.Moves b) : b.Follows asked := by
  obtain ⟨k, hk, rfl⟩ := App.moves_iff.1 ab
  clear ab
  induction k with
  | zero => rwa [App.served_zero]
  | succ k ih =>
    have before := Nat.le_of_succ_le hk
    have waits : 1 ≤ (a.served k).pending.length := by
      rw [App.length_pending_served]
      exact Nat.le_sub_of_add_le (Nat.add_comm k 1 ▸ hk)
    rw [← App.served_served before]
    exact (ih before).served waits

end App.Follows

namespace Leaf

theorem updateApp?_isSome (attempt : AttemptId) (k : App → App) (l : List App) :
    (updateApp? attempt k l).isSome = true ↔ ∃ a ∈ l, a.attempt = attempt := by
  induction l with
  | nil => simp [updateApp?]
  | cons a rest ih =>
    rw [updateApp?]
    split
    case isTrue own => simp [own]
    case isFalse other => simp [ih, other]

end Leaf

namespace Ledger

/-- The applications of a leaf are those of different attempts, each as the ledger says. -/
structure Records (ledger : Ledger) (apps : List App) : Prop where
  distinct : (apps.map App.attempt).Nodup
  follows : ∀ a ∈ apps, a.Follows (ledger a.attempt)

namespace Records

variable {ledger : Ledger} {apps : List App} {l m : Leaf} {attempt : AttemptId}

theorem nil (ledger : Ledger) : ledger.Records [] := ⟨.nil, by simp⟩

theorem sublist {fewer : List App} (h : ledger.Records apps) (sub : fewer.Sublist apps) :
    ledger.Records fewer :=
  ⟨h.distinct.sublist (sub.map _), fun a ha => h.follows a (sub.subset ha)⟩

theorem moves {later : List App} (h : ledger.Records apps) (moved : AppsMove apps later) :
    ledger.Records later where
  distinct := moved.attempts ▸ h.distinct
  follows b hb := by
    obtain ⟨a, ha, ab⟩ := moved.of_mem hb
    have follows := (h.follows a ha).moves ab
    obtain ⟨_, _, -, rfl⟩ := ab
    exact follows

/-- One application changes, with what the ledger says of its attempt. -/
theorem change {before after : List App} {a b : App} {asked : List Resource}
    (h : ledger.Records (before ++ a :: after)) (same : b.attempt = a.attempt)
    (follows : b.Follows asked) :
    Records (Function.update ledger a.attempt asked) (before ++ b :: after) := by
  have distinct := h.distinct
  rw [List.map_append, List.map_cons] at distinct
  refine ⟨by rwa [List.map_append, List.map_cons, same], fun c hc => ?_⟩
  -- The other applications are of other attempts, of which the ledger says what it said.
  have other : a.attempt ∉ before.map App.attempt ++ after.map App.attempt :=
    (List.nodup_cons.1 (List.nodup_middle.1 distinct)).1
  rw [← List.map_append] at other
  rw [List.mem_append, List.mem_cons, or_left_comm] at hc
  rcases hc with rfl | hc
  · rwa [same, Function.update_self]
  · have hc : c ∈ before ++ after := List.mem_append.2 hc
    have ne : c.attempt ≠ a.attempt := fun e => other (e ▸ List.mem_map_of_mem hc)
    rw [Function.update_of_ne ne]
    apply h.follows
    rw [List.mem_append, List.mem_cons]
    rcases List.mem_append.1 hc with hc | hc
    · exact .inl hc
    · exact .inr (.inr hc)

theorem submit {user : String} (taken : l.submit? attempt user = some m)
    (h : ledger.Records l.apps) : (ledger.opened attempt).Records m.apps := by
  obtain ⟨new, holds⟩ := Leaf.submit?_eq_some taken
  rw [holds]
  constructor
  · rw [List.map_append, List.nodup_append]
    refine ⟨h.distinct, List.nodup_singleton _, fun x hx y hy => ?_⟩
    obtain ⟨a, ha, rfl⟩ := List.mem_map.1 hx
    rw [List.mem_singleton.1 hy]
    exact new a ha
  · intro a ha
    rcases List.mem_append.1 ha with ha | ha
    · rw [opened, Function.update_of_ne (new a ha)]
      exact h.follows a ha
    · rw [List.mem_singleton.1 ha, opened, Function.update_self]
      exact .submitted attempt user

theorem request {request : Resource} (added : l.request? attempt request = some m)
    (h : ledger.Records l.apps) : (ledger.entered attempt request).Records m.apps := by
  obtain ⟨before, a, after, held, rfl, holds⟩ := Leaf.request?_eq_some added
  rw [held] at h
  rw [holds]
  have waits : a.Follows (ledger a.attempt) := h.follows a (by simp)
  apply h.change
  · rfl
  · exact waits.request request

theorem finish {user : String} (ended : l.finish? attempt = some (m, user))
    (h : ledger.Records l.apps) : ledger.Records m.apps := by
  obtain ⟨a, -, e⟩ := Option.map_eq_some_iff.1 ended
  cases e
  exact h.sublist List.eraseP_sublist

theorem release {container : ContainerId} (released : l.release? container = some m)
    (h : ledger.Records l.apps) : ledger.Records m.apps := by
  obtain ⟨before, a, after, held, -, holds⟩ := Leaf.release?_eq_some released
  rw [held] at h
  rw [holds]
  have runs : a.Follows (ledger a.attempt) := h.follows a (by simp)
  rw [← Function.update_eq_self a.attempt ledger]
  apply h.change
  · rfl
  · exact runs.release _

end Records
end Ledger

namespace Forest

variable {f g : Forest} {p q : QueueId} {ledger ledger' : Ledger}

/-- A leaf that changes brings its ledger along, and the other queues keep theirs. -/
theorem records_leaf {l m : Leaf} (hb : (f.node p).body = .leaf l)
    (each : ledger.Records l.apps → ledger'.Records m.apps)
    (records : ledger.Records (f.node q).apps) :
    (if p = q then ledger' else ledger).Records
      ((f.update p (Node.mapLeaf fun _ => m)).node q).apps := by
  by_cases here : p = q
  · subst here
    rw [Node.apps_of_leaf hb] at records
    rw [if_pos rfl]
    by_cases known : p < f.nodes.size
    · rw [node_update_self f _ known, Node.mapLeaf, hb]
      exact each records
    · -- A queue that is none holds nothing.
      have none : (f.update p (Node.mapLeaf fun _ => m)).nodes.size ≤ p := by
        rw [size_update]
        exact Nat.not_lt.1 known
      rw [node_of_size_le none]
      exact .nil ledger'
  · rw [if_neg here, node_update_of_ne f _ (Ne.symm here)]
    exact records

theorem records_changeLeaf {change : Leaf → Option Leaf}
    (each : ∀ l m, change l = some m → ledger.Records l.apps → ledger'.Records m.apps)
    (h : f.changeLeaf? p change = some g) (records : ledger.Records (f.node q).apps) :
    (if p = q then ledger' else ledger).Records (g.node q).apps := by
  obtain ⟨l, m, hb, hm, rfl⟩ := changeLeaf?_eq_some.1 h
  exact records_leaf hb (each l m hm) records

variable {attempt : AttemptId}

theorem records_submit {user : String} (h : f.submit? p attempt user = some g)
    (records : ledger.Records (f.node q).apps) :
    (if p = q then ledger.opened attempt else ledger).Records (g.node q).apps := by
  obtain ⟨changed, taken, rfl⟩ := Option.map_eq_some_iff.1 h
  rw [(keeps_countAbove keeps_countIn changed p).apps]
  exact records_changeLeaf (fun _ _ => .submit) taken records

theorem records_request {request : Resource} (h : f.request? p attempt request = some g)
    (records : ledger.Records (f.node q).apps) :
    (if p = q then ledger.entered attempt request else ledger).Records (g.node q).apps :=
  records_changeLeaf (fun _ _ => .request) h records

theorem records_finish {user : String} (h : f.finish? p attempt = some (g, user))
    (records : ledger.Records (f.node q).apps) : ledger.Records (g.node q).apps := by
  obtain ⟨l, m, hb, hm, rfl⟩ := finish?_eq_some.1 h
  rw [(keeps_countAbove keeps_countOut _ p).apps, ← ite_self (c := p = q) ledger]
  exact records_leaf hb (.finish hm) records

theorem records_release {container : ContainerId} (h : f.releaseContainer? p container = some g)
    (records : ledger.Records (f.node q).apps) : ledger.Records (g.node q).apps := by
  rw [← ite_self (c := p = q) ledger]
  exact records_changeLeaf (fun _ _ => .release) h records

theorem apps_update {k : Node → Node} (same : (k (f.node p)).apps = (f.node p).apps)
    (q : QueueId) : ((f.update p k).node q).apps = (f.node q).apps := by
  rw [node_update]
  split
  case isTrue here => rw [here.1, same]
  case isFalse => rfl

theorem appsMove_offer (machine : Machine) (s : Shape) (f : Forest) (q : QueueId) :
    AppsMove (f.node q).apps ((offer machine s f).1.node q).apps := by
  apply offer_preserves (P := fun g => AppsMove (f.node q).apps (g.node q).apps)
  case reordered =>
    intro g p l moved
    rwa [apps_update (Node.withChildren_apps l _)]
  case served =>
    intro g p request moved found
    exact moved.trans ((serves_grant found).moves q)
  case visited =>
    intro g p k moved
    rwa [apps_update]
    cases hb : (g.node p).body <;> simp [Node.mapScripted, Node.apps, hb]
  case holds => exact .refl _

theorem apps_attach (f : Forest) (p c q : QueueId) :
    ((f.attach p c).node q).apps = (f.node q).apps := apps_update (Node.mapComposite_apps _ _) q

theorem apps_detach {name : String} (h : f.detach? p name = some g) (q : QueueId) :
    (g.node q).apps = (f.node q).apps := by
  rw [detach?] at h
  split at h
  · cases h
    exact apps_update (Node.mapComposite_apps _ _) q
  · cases h

end Forest

namespace System

/-- Whether an operation is refused by the leaf it is meant for. -/
def refuses (s : System) : Event → Bool
  | .submit q attempt user => (s.forest.submit? q attempt user).isNone
  | .request q attempt request => (s.forest.request? q attempt request).isNone
  | .finish q attempt => (s.forest.finish? q attempt).isNone
  | .release q container => (s.forest.releaseContainer? q container).isNone
  | _ => false

theorem perform_of_refuses {s : System} {e : Event} (refused : s.refuses e = true) :
    s.perform e = s := by
  cases e with
  | submit q attempt user => rw [perform, Option.isNone_iff_eq_none.1 refused]; rfl
  | request q attempt request => rw [perform, Option.isNone_iff_eq_none.1 refused]; rfl
  | finish q attempt => rw [perform, Option.isNone_iff_eq_none.1 refused]; rfl
  | release q container => rw [perform, Option.isNone_iff_eq_none.1 refused]; rfl
  | _ => cases refused

/-- Any other operation makes containers of requests at most. -/
theorem appsMove_perform {s : System} {e : Event} (settled : e.isOrder = false) (q : QueueId) :
    AppsMove (s.forest.node q).apps ((s.perform e).forest.node q).apps := by
  have of_eq {f : Forest} (same : (f.node q).apps = (s.forest.node q).apps) :
      AppsMove (s.forest.node q).apps (f.node q).apps := same ▸ .refl _
  cases pass : e.isPass with
  | true =>
    apply pass_preserves_of_keeps
      (P := fun f => AppsMove (s.forest.node q).apps (f.node q).apps) pass
    case kept =>
      intro f g kept moved
      rwa [kept.apps]
    case assigned =>
      intro f p machine _ moved
      exact moved.trans (Forest.appsMove_offer machine (f.shape p) f q)
    case holds => exact .refl _
  | false =>
    cases e with
    | createLeaf name policy => exact of_eq ((s.tree.createLeaf_creates name policy).1.apps q)
    | reload allocation =>
      refine of_eq ?_
      rw [perform, QueueTree.reload]
      cases allocation.check <;> rfl
    | attach parent child => exact of_eq (Forest.apps_attach _ parent child q)
    | detach parent name =>
      cases h : s.forest.detach? parent name with
      | none => exact of_eq (by rw [perform, h]; rfl)
      | some g => exact of_eq (by rw [perform, h]; exact Forest.apps_detach h q)
    | submit p attempt user => cases settled
    | request p attempt request => cases settled
    | finish p attempt => cases settled
    | release p container => cases settled
    | _ => cases pass

/-- What an accepted operation enters into the ledger of a queue. -/
def enter (q : QueueId) (ledger : Ledger) : Event → Ledger
  | .submit p attempt _ => if p = q then ledger.opened attempt else ledger
  | .request p attempt request => if p = q then ledger.entered attempt request else ledger
  | _ => ledger

/-- The ledger of a queue after operations; what is refused is not entered. -/
def ledgerFrom (q : QueueId) : System → Ledger → List Event → Ledger
  | _, ledger, [] => ledger
  | s, ledger, e :: rest =>
    ledgerFrom q (s.perform e) (if s.refuses e then ledger else enter q ledger e) rest

/-- The requests of each attempt in a queue that were accepted since it was last submitted. -/
def ledger (s : System) (q : QueueId) (events : List Event) : Ledger :=
  ledgerFrom q s (fun _ => []) events

theorem records_perform {s : System} {q : QueueId} {ledger : Ledger}
    (records : ledger.Records (s.forest.node q).apps) (e : Event) :
    (if s.refuses e then ledger else enter q ledger e).Records
      ((s.perform e).forest.node q).apps := by
  cases refused : s.refuses e with
  | true => rwa [perform_of_refuses refused]
  | false =>
    rw [if_neg Bool.false_ne_true]
    have accepted {α : Type} {answer : Option α} (h : answer.isNone = false) :
        ∃ g, answer = some g := Option.isSome_iff_exists.1 (Option.isNone_eq_false_iff.1 h)
    cases e with
    | submit p attempt user =>
      obtain ⟨g, h⟩ := accepted refused
      rw [perform, h]
      exact Forest.records_submit h records
    | request p attempt request =>
      obtain ⟨g, h⟩ := accepted refused
      rw [perform, h]
      exact Forest.records_request h records
    | finish p attempt =>
      obtain ⟨⟨g, user⟩, h⟩ := accepted refused
      rw [perform, h]
      exact Forest.records_finish h records
    | release p container =>
      obtain ⟨g, h⟩ := accepted refused
      rw [perform, h]
      exact Forest.records_release h records
    | _ => exact records.moves (appsMove_perform rfl q)

theorem records_run {s : System} {q : QueueId} {ledger : Ledger}
    (records : ledger.Records (s.forest.node q).apps) (events : List Event) :
    (ledgerFrom q s ledger events).Records ((s.run events).forest.node q).apps := by
  induction events generalizing s ledger with
  | nil => exact records
  | cons e rest ih => exact ih (records_perform records e)

end System

namespace Leaf

variable {l : Leaf} {attempt : AttemptId}

theorem submit?_eq_none_iff (user : String) :
    l.submit? attempt user = none ↔ ∃ a ∈ l.apps, a.attempt = attempt := by
  rw [submit?]
  cases found : l.app? attempt with
  | none => simpa using app?_eq_none_iff.1 found
  | some a => exact iff_of_true rfl ⟨a, List.mem_of_find?_eq_some found,
      by simpa using List.find?_some found⟩

theorem request?_eq_none_iff (request : Resource) :
    l.request? attempt request = none ↔ ∀ a ∈ l.apps, a.attempt ≠ attempt := by
  rw [request?, Option.map_eq_none_iff, ← Option.not_isSome_iff_eq_none, updateApp?_isSome]
  simp

/-- Only an application of its attempt may run a container. -/
theorem attempt_of_mem_running {ledger : Ledger} {apps : List App} (records : ledger.Records apps)
    {a b : App} (ha : a ∈ apps) (hb : b ∈ apps) {c : Container} (hc : c ∈ b.running)
    (same : a.attempt = c.id.attempt) : b = a := by
  refine List.inj_on_of_nodup_map records.distinct hb ha ?_
  rw [same, (records.follows b hb).own c hc]

/-- A leaf refuses to release what does not run there. -/
theorem release?_eq_none_iff {ledger : Ledger} (records : ledger.Records l.apps)
    (id : ContainerId) : l.release? id = none ↔ ∀ c ∈ l.running, c.id ≠ id := by
  rw [release?]
  cases found : l.app? id.attempt with
  | none =>
    refine iff_of_true rfl fun c hc e => ?_
    obtain ⟨a, ha, hc⟩ := List.mem_flatMap.1 hc
    apply app?_eq_none_iff.1 found a ha
    rw [← (records.follows a ha).own c hc, e]
  | some a =>
    have ha : a ∈ l.apps := List.mem_of_find?_eq_some found
    have own : a.attempt = id.attempt := by simpa using List.find?_some found
    have running : (∀ c ∈ l.running, c.id ≠ id) ↔ ∀ c ∈ a.running, c.id ≠ id := by
      constructor
      · intro all c hc
        exact all c (List.mem_flatMap.2 ⟨a, ha, hc⟩)
      · intro here c hc e
        obtain ⟨b, hb, hc⟩ := List.mem_flatMap.1 hc
        obtain rfl := attempt_of_mem_running records ha hb hc (e ▸ own)
        exact here c hc e
    have known := (updateApp?_isSome id.attempt
      (fun a => { a with running := a.running.filter fun c => c.id ≠ id }) l.apps).2 ⟨a, ha, own⟩
    rw [running]
    dsimp only
    split
    case isTrue absent => exact iff_of_true rfl (by simpa using absent)
    case isFalse present =>
      refine iff_of_false ?_ (by simpa using present)
      rw [Option.map_eq_none_iff, ← Option.not_isSome_iff_eq_none]
      exact not_not_intro known

end Leaf

theorem Forest.changeLeaf?_eq_none_iff {f : Forest} {q : QueueId} {l : Leaf}
    (hb : (f.node q).body = .leaf l) (change : Leaf → Option Leaf) :
    f.changeLeaf? q change = none ↔ change l = none := by
  rw [changeLeaf?, hb]
  exact Option.map_eq_none_iff

namespace System

/-- A queue that held nothing holds its applications as the ledger of the run says, and whatever is
refused changes nothing: an attempt that is there already, a request of one that is not, and the
release of what does not run. -/
theorem records_of_run {s : System} {q : QueueId} (empty : (s.forest.node q).apps = [])
    (events : List Event) :
    let t := s.run events
    (s.ledger q events).Records (t.forest.node q).apps ∧
      (∀ e, t.refuses e = true → t.perform e = t) ∧
      ∀ l, (t.forest.node q).body = .leaf l →
        (∀ attempt user, t.refuses (.submit q attempt user) = true ↔
          ∃ a ∈ l.apps, a.attempt = attempt) ∧
        (∀ attempt request, t.refuses (.request q attempt request) = true ↔
          ∀ a ∈ l.apps, a.attempt ≠ attempt) ∧
        ∀ container, t.refuses (.release q container) = true ↔
          ∀ c ∈ l.running, c.id ≠ container := by
  intro t
  have start : Ledger.Records (fun _ => []) (s.forest.node q).apps := empty ▸ .nil _
  have records : (s.ledger q events).Records (t.forest.node q).apps := records_run start events
  refine ⟨records, fun e => perform_of_refuses, fun l hb => ⟨?_, ?_, ?_⟩⟩
  · intro attempt user
    rw [refuses, Option.isNone_iff_eq_none, Forest.submit?, Option.map_eq_none_iff,
      Forest.changeLeaf?_eq_none_iff hb, Leaf.submit?_eq_none_iff]
  · intro attempt request
    rw [refuses, Option.isNone_iff_eq_none, Forest.request?, Forest.changeLeaf?_eq_none_iff hb,
      Leaf.request?_eq_none_iff]
  · intro container
    rw [Node.apps_of_leaf hb] at records
    rw [refuses, Option.isNone_iff_eq_none, Forest.releaseContainer?,
      Forest.changeLeaf?_eq_none_iff hb, Leaf.release?_eq_none_iff records]

/-- An attempt runs a container, ends and is submitted again; then it makes three requests, and the
second of its containers is released. -/
def resubmitted : List Event :=
  let attempt : AttemptId := ⟨⟨1⟩, 1⟩
  let machine : Machine := ⟨"m", .ofMemoryCores 9 9, none⟩
  [.submit 1 attempt "ann", .request 1 attempt (.ofMemoryCores 5 1), .assign 0 machine,
    .finish 1 attempt, .submit 1 attempt "ann", .submit 1 attempt "bob",
    .request 1 attempt (.ofMemoryCores 1 1), .request 1 attempt (.ofMemoryCores 2 1),
    .request 1 attempt (.ofMemoryCores 3 1), .request 1 attempt (.ofMemoryCores 4 1),
    .assign 0 machine, .assign 1 machine, .assign 0 machine, .release 1 ⟨attempt, 2⟩]

/-- What the attempt holds in the end. -/
def resubmittedApp : App where
  attempt := ⟨⟨1⟩, 1⟩
  user := "ann"
  pending := [.ofMemoryCores 4 1]
  running := [⟨⟨⟨⟨1⟩, 1⟩, 1⟩, .ofMemoryCores 1 1⟩, ⟨⟨⟨⟨1⟩, 1⟩, 3⟩, .ofMemoryCores 3 1⟩]
  nextSequence := 4

theorem records_of_run_resubmitted :
    ∃ asked t, QueueTree.build QueueTree.resolveNamed QueueTree.oneLeaf = (asked, .ok t) ∧
      let s : System := { tree := t }
      (s.forest.node 1).apps = [] ∧
        (s.ledger 1 resubmitted).Records ((s.run resubmitted).forest.node 1).apps ∧
        ((s.run resubmitted).forest.node 1).apps = [resubmittedApp] ∧
        s.ledger 1 resubmitted ⟨⟨1⟩, 1⟩ =
          [.ofMemoryCores 1 1, .ofMemoryCores 2 1, .ofMemoryCores 3 1, .ofMemoryCores 4 1] := by
  have facts : ∀ t ∈ (QueueTree.build QueueTree.resolveNamed QueueTree.oneLeaf).2.toOption,
      let s : System := { tree := t }
      (s.forest.node 1).apps = [] ∧
        ((s.run resubmitted).forest.node 1).apps = [resubmittedApp] ∧
        s.ledger 1 resubmitted ⟨⟨1⟩, 1⟩ =
          [.ofMemoryCores 1 1, .ofMemoryCores 2 1, .ofMemoryCores 3 1, .ofMemoryCores 4 1] := by
    decide +kernel
  obtain ⟨asked, t, built, empty, apps, entries⟩ :=
    QueueTree.exists_built (by decide +kernel) facts
  exact ⟨asked, t, built, empty, (records_of_run empty resubmitted).1, apps, entries⟩

end System
end FairShare
