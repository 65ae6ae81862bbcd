import Mathlib.Data.List.DropRight
import FairShare.Metrics

/-!
What sinks show of the applications that ended.  An end that is reported to a sink is recorded in it
and in all sinks above it, in each under the name of the sink's own queue.  The tally of a sink
counts all that it recorded.  Its log is the end of that: as many completions as the capacity says,
but the last one in any case, because room is made before the completion is added.
-/

namespace FairShare

theorem Tally.get_count (t : Tally) (state other : FinalState) :
    (t.count state).get other = t.get other + if state = other then 1 else 0 := by
  cases state <;> cases other <;> rfl

namespace Sink

variable {s : Sink} {l : List Completion}

/-- How many completions the log of a sink keeps. -/
def window (s : Sink) : Nat := max s.capacity 1

/-- The sink recorded these completions, oldest first. -/
structure Shows (s : Sink) (l : List Completion) : Prop where
  log : s.log = l.rtake s.window
  tally : ∀ state, s.tally.get state = l.countP fun c => c.state = state

theorem shows_nil (log : s.log = []) (tally : s.tally = {}) : s.Shows [] where
  log := by rw [log, List.rtake_nil]
  tally state := by
    rw [tally]
    cases state <;> rfl

/-- A full log loses its oldest entry, so that the window has its last place free. -/
theorem Shows.kept (shows : s.Shows l) :
    (if s.capacity ≤ s.log.length then s.log.drop 1 else s.log) = l.rtake (s.window - 1) := by
  have log : s.log = l.drop (l.length - s.window) := shows.log
  have length : s.log.length = l.length - (l.length - s.window) := by
    rw [log, List.length_drop]
  rw [List.rtake]
  rw [window] at log length ⊢
  split
  · next full =>
    rw [log, List.drop_drop]
    -- Nothing was recorded yet, or the log begins where the window does.
    rcases Nat.eq_zero_or_pos l.length with none | some
    · rw [List.length_eq_zero_iff.1 none, List.drop_nil, List.drop_nil]
    · congr 1
      omega
  · next room =>
    -- There is room, so nothing was lost so far.
    rw [log]
    congr 1
    omega

theorem Shows.record (shows : s.Shows l) (user : String) (state : FinalState) :
    (s.record user state).Shows (l ++ [⟨s.queue, user, state⟩]) where
  log := by
    have window : s.window = s.window - 1 + 1 := by
      rw [Sink.window]
      omega
    have same : (s.record user state).window = s.window := rfl
    rw [same, window, List.rtake_concat_succ, ← shows.kept]
    rfl
  tally other := by
    have counted : (s.record user state).tally = s.tally.count state := rfl
    rw [counted, Tally.get_count, shows.tally, List.countP_append, List.countP_singleton]
    simp only [decide_eq_true_eq]

end Sink

namespace Metrics

/-- A sink and the sinks above it. -/
def line (m : Metrics) (id : SinkId) : List SinkId :=
  id ::
    match (m.sink id).parent with
    | some parent => if parent < id then m.line parent else []
    | none => []
termination_by id

variable {m m' : Metrics} {id s : SinkId} {user : String} {state : FinalState}

theorem line_cases (m : Metrics) (id : SinkId) :
    (∀ parent, (m.sink id).parent = some parent → ¬ parent < id) ∧ m.line id = [id] ∨
      ∃ parent, (m.sink id).parent = some parent ∧ parent < id ∧
        m.line id = id :: m.line parent := by
  rw [line]
  cases above : (m.sink id).parent with
  | none => exact .inl ⟨by simp, rfl⟩
  | some parent =>
    dsimp only
    split
    · next older => exact .inr ⟨parent, rfl, older, rfl⟩
    · next younger => exact .inl ⟨by simpa using younger, rfl⟩

theorem line_of_top (top : ∀ parent, (m.sink id).parent = some parent → ¬ parent < id) :
    m.line id = [id] := by
  rcases m.line_cases id with ⟨-, line⟩ | ⟨parent, above, older, -⟩
  · exact line
  · exact absurd older (top parent above)

theorem line_of_parent {parent : SinkId} (above : (m.sink id).parent = some parent)
    (older : parent < id) : m.line id = id :: m.line parent := by
  rcases m.line_cases id with ⟨top, -⟩ | ⟨parent', above', -, line⟩
  · exact absurd older (top parent above)
  · obtain rfl := Option.some.inj (above.symm.trans above')
    exact line

theorem le_of_mem_line (h : s ∈ m.line id) : s ≤ id := by
  induction id using Nat.strong_induction_on with
  | h id ih =>
    rcases m.line_cases id with ⟨-, line⟩ | ⟨parent, -, older, line⟩
    · rw [line, List.mem_singleton] at h
      exact h.le
    · rw [line] at h
      rcases List.mem_cons.1 h with rfl | h
      · exact le_rfl
      · exact (ih parent older h).trans older.le

/-- Which sinks stand above a sink is said by the parents of the sinks up to it. -/
theorem line_congr (same : ∀ s ≤ id, (m'.sink s).parent = (m.sink s).parent) :
    m'.line id = m.line id := by
  induction id using Nat.strong_induction_on with
  | h id ih =>
    have own := same id le_rfl
    rcases m.line_cases id with ⟨top, line⟩ | ⟨parent, above, older, line⟩
    · rw [line]
      apply line_of_top
      exact own ▸ top
    · have rest : m'.line parent = m.line parent := by
        apply ih parent older
        intro s hs
        exact same s (hs.trans older.le)
      rw [line, line_of_parent (own.trans above) older, rest]

/-- Records a completion in one sink. -/
def recordAt (m : Metrics) (id : SinkId) (user : String) (state : FinalState) : Metrics :=
  m.modify id fun s => s.record user state

theorem size_recordAt : (m.recordAt id user state).size = m.size := Array.size_modify

theorem sink_recordAt (m : Metrics) (id s : SinkId) (user : String) (state : FinalState) :
    (m.recordAt id user state).sink s =
      if s = id ∧ id < m.size then (m.sink s).record user state else m.sink s := by
  by_cases same : id = s
  · subst same
    by_cases known : id < m.size <;>
      simp [recordAt, sink, Array.getD_eq_getD_getElem?, Array.getElem_modify, known]
  · simp [recordAt, sink, Array.getD_eq_getD_getElem?, Array.getElem?_modify, same, Ne.symm same]

/-- What no completion changes in a sink. -/
theorem field_recordAt {α : Type} (field : Sink → α)
    (fixed : ∀ s user state, field (Sink.record s user state) = field s) (s : SinkId) :
    field ((m.recordAt id user state).sink s) = field (m.sink s) := by
  rw [sink_recordAt]
  split
  · exact fixed _ _ _
  · rfl

theorem line_recordAt (s : SinkId) : (m.recordAt id user state).line s = m.line s :=
  line_congr fun _ _ => field_recordAt Sink.parent (fun _ _ _ => rfl) _

theorem complete_of_top (top : ∀ parent, (m.sink id).parent = some parent → ¬ parent < id) :
    m.complete id user state = m.recordAt id user state := by
  rw [complete]
  split
  · next parent above => exact if_neg (top parent above)
  · rfl

theorem complete_of_parent {parent : SinkId} (above : (m.sink id).parent = some parent)
    (older : parent < id) :
    m.complete id user state = (m.recordAt id user state).complete parent user state := by
  rw [complete, above]
  exact if_pos older

/-- What recording in one sink preserves, reporting an end preserves. -/
theorem complete_preserves {P : Metrics → Prop}
    (each : ∀ m id, P m → P (m.recordAt id user state)) (holds : P m) :
    P (m.complete id user state) := by
  induction id using Nat.strong_induction_on generalizing m with
  | h id ih =>
    rcases m.line_cases id with ⟨top, -⟩ | ⟨parent, above, older, -⟩
    · rw [complete_of_top top]
      exact each m id holds
    · rw [complete_of_parent above older]
      exact ih parent older (each m id holds)

theorem size_complete : (m.complete id user state).size = m.size :=
  complete_preserves (P := fun m' => m'.size = m.size)
    (fun _ _ same => size_recordAt.trans same) rfl

theorem field_complete {α : Type} (field : Sink → α)
    (fixed : ∀ s user state, field (Sink.record s user state) = field s) (s : SinkId) :
    field ((m.complete id user state).sink s) = field (m.sink s) :=
  complete_preserves (P := fun m' => field (m'.sink s) = field (m.sink s))
    (fun _ _ same => (field_recordAt field fixed s).trans same) rfl

theorem line_complete (s : SinkId) : (m.complete id user state).line s = m.line s :=
  line_congr fun _ _ => field_complete Sink.parent (fun _ _ _ => rfl) _

/-- An end is recorded once in the sink to which it is reported and once in each sink above it. -/
theorem sink_complete (known : s < m.size) :
    (m.complete id user state).sink s =
      if s ∈ m.line id then (m.sink s).record user state else m.sink s := by
  induction id using Nat.strong_induction_on generalizing m with
  | h id ih =>
    have own := m.sink_recordAt id s user state
    rcases m.line_cases id with ⟨top, line⟩ | ⟨parent, above, older, line⟩
    · rw [complete_of_top top, own, line]
      simp only [List.mem_singleton]
      split
      · next same => rw [if_pos same.1]
      · next other => rw [if_neg fun same => other ⟨same, same ▸ known⟩]
    · rw [complete_of_parent above older, ih parent older (size_recordAt.symm ▸ known),
        line_recordAt, own, line]
      -- The line above is older, so the sink itself is not on it.
      by_cases same : s = id
      · subst same
        have absent : s ∉ m.line parent := fun h => Nat.not_le.2 older (le_of_mem_line h)
        simp [absent, known]
      · simp [same]

end Metrics

/-- An end that is reported to a sink. -/
structure Report where
  sink : SinkId
  user : String
  state : FinalState

namespace Metrics

def reportAll (m : Metrics) (reports : List Report) : Metrics :=
  reports.foldl (fun m r => m.complete r.sink r.user r.state) m

/-- The ends that reach a sink, under the name of its queue. -/
def reached (m : Metrics) (s : SinkId) (reports : List Report) : List Completion :=
  (reports.filter fun r => s ∈ m.line r.sink).map fun r => ⟨(m.sink s).queue, r.user, r.state⟩

section

variable {m : Metrics} {s : SinkId} {l : List Completion}

theorem reached_complete (id : SinkId) (user : String) (state : FinalState)
    (reports : List Report) :
    (m.complete id user state).reached s reports = m.reached s reports := by
  have queue : ((m.complete id user state).sink s).queue = (m.sink s).queue :=
    field_complete Sink.queue (fun _ _ _ => rfl) s
  simp only [reached, line_complete, queue]

theorem shows_complete (known : s < m.size) (shows : (m.sink s).Shows l) (r : Report) :
    ((m.complete r.sink r.user r.state).sink s).Shows (l ++ m.reached s [r]) := by
  rw [sink_complete known, reached, List.filter_cons]
  by_cases above : s ∈ m.line r.sink
  · simpa [above] using shows.record r.user r.state
  · simpa [above] using shows

/-- A sink goes on to show what reaches it. -/
theorem shows_reportAll (known : s < m.size) (shows : (m.sink s).Shows l)
    (reports : List Report) :
    ((m.reportAll reports).sink s).Shows (l ++ m.reached s reports) := by
  induction reports generalizing m l with
  | nil => simpa [reportAll, reached] using shows
  | cons r rest ih =>
    have first := shows_complete known shows r
    have later := ih (size_complete.symm ▸ known) first
    rw [reached_complete, List.append_assoc] at later
    have split : m.reached s (r :: rest) = m.reached s [r] ++ m.reached s rest := by
      rw [reached, reached, reached, ← List.map_append, ← List.filter_append,
        List.singleton_append]
    rw [split]
    exact later

theorem field_reportAll {α : Type} (field : Sink → α)
    (fixed : ∀ s user state, field (Sink.record s user state) = field s)
    (reports : List Report) : field ((m.reportAll reports).sink s) = field (m.sink s) := by
  induction reports generalizing m with
  | nil => rfl
  | cons r rest ih => exact ih.trans (field_complete field fixed s)

end

/-- How a sink is created. -/
structure Opening where
  queue : String
  parent : Option SinkId := none
  capacity : Nat

/-- Sinks that nothing was reported to yet, each numbered by its place. -/
def opened (sinks : List Opening) : Metrics :=
  (sinks.map fun o => { queue := o.queue, parent := o.parent, capacity := o.capacity }).toArray

theorem sink_opened (sinks : List Opening) (s : Fin sinks.length) :
    (opened sinks).sink s =
      { queue := sinks[s].queue, parent := sinks[s].parent, capacity := sinks[s].capacity } := by
  simp [opened, sink, Array.getD_eq_getD_getElem?]

/-- A window with one place at least keeps to `n` places unless these are none and it has an entry.
-/
theorem rtake_max_one_iff {α : Type} (l : List α) (n : Nat) :
    (l.rtake (max n 1)).length ≤ n ∧ l.rtake (max n 1) = l.rtake n ↔ 1 ≤ n ∨ l = [] := by
  constructor
  · rintro ⟨fits, -⟩
    rw [List.rtake, List.length_drop] at fits
    rw [← List.length_eq_zero_iff]
    omega
  · rintro (some | rfl)
    · rw [max_eq_left some, List.rtake, List.length_drop]
      exact ⟨by omega, rfl⟩
    · rw [List.rtake_nil, List.rtake_nil]
      exact ⟨Nat.zero_le n, rfl⟩

/-- After any reports to any sinks, the log of a sink is the end of what reached it, under the name
of its own queue: as many completions as its capacity, and the last one if the capacity is nothing.
The tally counts what reached the sink, what is no longer in the log included.  So the log keeps to
its capacity unless that is nothing. -/
theorem log_of_reports (sinks : List Opening) (reports : List Report) (s : Fin sinks.length) :
    let m := opened sinks
    let after := (m.reportAll reports).sink s
    let capacity := sinks[s].capacity
    after.log = (m.reached s reports).rtake (max capacity 1) ∧
      (∀ state, after.tally.get state =
        reports.countP fun r => s.val ∈ m.line r.sink ∧ r.state = state) ∧
      (∀ c ∈ after.log, c.queue = sinks[s].queue) ∧
      (after.log.length ≤ capacity ∧ after.log = (m.reached s reports).rtake capacity ↔
        1 ≤ capacity ∨ ∀ r ∈ reports, s.val ∉ m.line r.sink) := by
  intro m after capacity
  have created := sink_opened sinks s
  have known : s.val < m.size := by simp [m, opened]
  have start : (m.sink s).Shows [] := by
    apply Sink.shows_nil
    · rw [created]
    · rw [created]
  have shows : after.Shows (m.reached s reports) := shows_reportAll known start reports
  have window : after.window = max capacity 1 := by
    have fixed : after.capacity = (m.sink s).capacity :=
      field_reportAll Sink.capacity (fun _ _ _ => rfl) reports
    rw [Sink.window, fixed, created]
  have queue : (m.sink s).queue = sinks[s].queue := by rw [created]
  have log : after.log = (m.reached s reports).rtake (max capacity 1) := window ▸ shows.log
  refine ⟨log, ?_, ?_, ?_⟩
  · intro state
    rw [shows.tally, reached, List.countP_map, List.countP_filter]
    apply List.countP_congr
    intro r _
    simp [and_comm]
  · intro c hc
    rw [log, List.rtake] at hc
    obtain ⟨r, -, rfl⟩ := List.mem_map.1 (List.mem_of_mem_drop hc)
    exact queue
  · have none : m.reached s reports = [] ↔ ∀ r ∈ reports, s.val ∉ m.line r.sink := by
      simp [reached]
    rw [← none, log]
    exact rtake_max_one_iff _ capacity

/-- A sink without room keeps the last completion all the same. -/
theorem log_exceeds_capacity :
    let sinks : List Opening := [{ queue := "root.a", capacity := 0 }]
    let after := ((opened sinks).reportAll [⟨0, "ann", .finished⟩]).sink 0
    after.log = [⟨"root.a", "ann", .finished⟩] ∧ after.capacity = 0 ∧
      ¬ after.log.length ≤ after.capacity := by
  intro sinks after
  have top : ∀ parent, ((opened sinks).sink 0).parent = some parent → ¬ parent < 0 := by
    intro parent above
    exact Nat.not_lt_zero parent
  have recorded : after = ((opened sinks).recordAt 0 "ann" .finished).sink 0 := by
    show ((opened sinks).complete 0 "ann" .finished).sink 0 = _
    rw [complete_of_top top]
  rw [recorded]
  decide

end Metrics
end FairShare
