import FairShare.Proofs.Admissions

/-!
The order in which applications came.  A queue takes an attempt in behind those that it holds, and
nothing brings them into another order; so they stand in the order in which the queue took them in,
an attempt that ended and was submitted again behind those that stayed.
-/

namespace FairShare
namespace System

/-- The operations with which a queue last took each attempt in, by their numbers; some were
performed and noted before. -/
def arrivalsFrom (q : QueueId) : System → Nat → (AttemptId → Nat) → List Event → AttemptId → Nat
  | _, _, arrivals, [] => arrivals
  | s, performed, arrivals, e :: rest =>
    arrivalsFrom q (s.perform e) (performed + 1)
      (fun attempt => if s.admits q attempt e then performed + 1 else arrivals attempt) rest

/-- The number of the operation with which a queue last took each attempt in, counted from one. -/
def arrival (s : System) (q : QueueId) (events : List Event) : AttemptId → Nat :=
  arrivalsFrom q s 0 (fun _ => 0) events

/-- Attempts in the order in which they were taken in, all of them by now. -/
structure Arrived (arrivals : AttemptId → Nat) (performed : Nat) (attempts : List AttemptId) :
    Prop where
  inOrder : attempts.Pairwise fun a b => arrivals a < arrivals b
  past : ∀ a ∈ attempts, arrivals a ≤ performed

variable {s : System} {q : QueueId} {arrivals : AttemptId → Nat} {performed : Nat}

/-- An operation takes an attempt in at the end, or it keeps some of the attempts in their order. -/
theorem attempts_perform (s : System) (q : QueueId) (e : Event) :
    (((s.perform e).forest.node q).apps.map App.attempt).Sublist
        ((s.forest.node q).apps.map App.attempt) ∨
      ∃ attempt, s.admits q attempt e = true ∧
        ((s.perform e).forest.node q).apps.map App.attempt =
          (s.forest.node q).apps.map App.attempt ++ [attempt] := by
  cases order : e.isOrder with
  | false =>
    left
    rw [(appsMove_perform order q).attempts]
  | true =>
    rcases apps_perform_order order s q with same | ⟨taken, l, m, accepts, before, after⟩
    · left
      rw [same]
    rw [before, after]
    cases accepts with
    | @submit _ _ attempt user h =>
      have holds := (Leaf.submit?_eq_some h).2
      refine .inr ⟨attempt, admits_iff.2 ⟨⟨user, rfl⟩, taken⟩, ?_⟩
      rw [holds, List.map_append, List.map_singleton]
    | request h =>
      obtain ⟨_, _, _, held, -, holds⟩ := Leaf.request?_eq_some h
      rw [held, holds, List.map_append, List.map_append, List.map_cons, List.map_cons]
      exact .inl (.refl _)
    | finish h =>
      obtain ⟨_, -, e⟩ := Option.map_eq_some_iff.1 h
      cases e
      exact .inl (List.eraseP_sublist.map _)
    | release h =>
      obtain ⟨_, _, _, held, -, holds⟩ := Leaf.release?_eq_some h
      rw [held, holds, List.map_append, List.map_append, List.map_cons, List.map_cons]
      exact .inl (.refl _)

theorem Arrived.perform
    (arrived : Arrived arrivals performed ((s.forest.node q).apps.map App.attempt)) (e : Event) :
    Arrived (fun attempt => if s.admits q attempt e then performed + 1 else arrivals attempt)
      (performed + 1) (((s.perform e).forest.node q).apps.map App.attempt) := by
  -- What is taken in was not there, so the attempts that were there keep their numbers.
  have kept : ∀ a ∈ (s.forest.node q).apps.map App.attempt,
      (if s.admits q a e then performed + 1 else arrivals a) = arrivals a := by
    intro a ha
    obtain ⟨app, happ, rfl⟩ := List.mem_map.1 ha
    exact if_neg fun admitted => absent_of_admits admitted app happ rfl
  have before : Arrived (fun attempt =>
      if s.admits q attempt e then performed + 1 else arrivals attempt) performed
      ((s.forest.node q).apps.map App.attempt) := by
    refine ⟨arrived.inOrder.imp_of_mem fun ha hb less => ?_, fun a ha => ?_⟩
    · rwa [kept _ ha, kept _ hb]
    · rw [kept a ha]
      exact arrived.past a ha
  rcases attempts_perform s q e with fewer | ⟨attempt, admitted, more⟩
  · refine ⟨before.inOrder.sublist fewer, fun a ha => ?_⟩
    exact (before.past a (fewer.subset ha)).trans (Nat.le_succ performed)
  · have newest : (if s.admits q attempt e then performed + 1 else arrivals attempt) =
        performed + 1 := if_pos admitted
    rw [more]
    constructor
    · refine List.pairwise_append.2 ⟨before.inOrder, List.pairwise_singleton _ _, ?_⟩
      intro a ha b hb
      rw [List.mem_singleton.1 hb, newest]
      exact Nat.lt_succ_of_le (before.past a ha)
    · intro a ha
      rcases List.mem_append.1 ha with ha | ha
      · exact (before.past a ha).trans (Nat.le_succ performed)
      · rw [List.mem_singleton.1 ha, newest]

theorem Arrived.run
    (arrived : Arrived arrivals performed ((s.forest.node q).apps.map App.attempt))
    (events : List Event) :
    Arrived (arrivalsFrom q s performed arrivals events) (performed + events.length)
      (((s.run events).forest.node q).apps.map App.attempt) := by
  induction events generalizing s performed arrivals with
  | nil => exact arrived
  | cons e rest ih =>
    rw [List.length_cons, Nat.add_comm rest.length 1, ← Nat.add_assoc]
    exact ih (arrived.perform e)

/-- Applications stand in the order in which the queue took them in. -/
theorem inOrder_of_run (empty : (s.forest.node q).apps = []) (events : List Event) :
    (((s.run events).forest.node q).apps.map App.attempt).Pairwise fun a b =>
      s.arrival q events a < s.arrival q events b := by
  have start : Arrived (fun _ => 0) 0 ((s.forest.node q).apps.map App.attempt) := by
    rw [empty]
    exact ⟨.nil, by simp⟩
  exact (start.run events).inOrder

end System
end FairShare
