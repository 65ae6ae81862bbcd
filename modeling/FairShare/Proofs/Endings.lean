import FairShare.Proofs.Wiring

/-!
Where applications end.  An application is bound to a queue, may be moved to others and given new
attempts, and ends at the queue that it was bound to last; an end may also be reported to a queue
without an application.  Each end is counted once at its queue and once at every queue whose path
lies above.
-/

namespace FairShare

/-- The ends at a queue and below it, each under the name of that queue. -/
def endedBelow (name : String) (ended : List Completion) : List Completion :=
  (ended.filter fun c => name ∈ Path.ancestors c.queue).map fun c => { c with queue := name }

theorem endedBelow_append (name : String) (ended : List Completion) (c : Completion) :
    endedBelow name (ended ++ [c]) =
      endedBelow name ended ++
        if name ∈ Path.ancestors c.queue then [{ c with queue := name }] else [] := by
  rw [endedBelow, endedBelow, List.filter_append, List.map_append, List.filter_singleton]
  by_cases above : name ∈ Path.ancestors c.queue <;> simp [above]

theorem Sink.shows_unshared {s : Sink} {l : List Completion} :
    s.unshared.Shows l ↔ s.Shows l :=
  ⟨fun h => ⟨h.log, h.tally⟩, fun h => ⟨h.log, h.tally⟩⟩

namespace QueueTree

/-- The sinks of the queues show the applications that ended at queues of the tree. -/
structure Tallied (t : QueueTree) (ended : List Completion) : Prop where
  wired : t.Wired
  known : ∀ c ∈ ended, ∃ q, t.find? c.queue = some q
  shows : ∀ {name q}, t.find? name = some q →
    (t.forest.metrics.sink (t.forest.node q).sink).Shows (endedBelow name ended)

theorem tallied_of_build {factory : PolicyFactory} {a : Allocation} {asked : List String}
    {t : QueueTree} (built : buildWith factory a = (asked, .ok t)) : t.Tallied [] := by
  obtain ⟨done, growing⟩ := growing_of_build built
  exact ⟨growing.wired, by simp, fun _ => growing.quiet _⟩

namespace Tallied

variable {t t' : QueueTree} {ended : List Completion} {name queue : String} {n : Node}
  {p q : QueueId} (tallied : t.Tallied ended)

include tallied

theorem of_origin {g : Forest} (same : g.origin = t.forest.origin) :
    ({ t with forest := g } : QueueTree).Tallied ended where
  wired := tallied.wired.of_same (Forest.sameWires_of_origin same)
  known := tallied.known
  shows {name q} hq := by
    have own : (g.node q).sink = (t.forest.node q).sink :=
      Forest.field_of_origin Node.sink Node.origin_sink same q
    have shows := tallied.shows hq
    rw [← Sink.shows_unshared, ← Forest.sink_of_origin same, Sink.shows_unshared] at shows
    show (g.metrics.sink (g.node q).sink).Shows _
    rwa [own]

/-- An end reaches the sinks of the queues at and above its path. -/
theorem complete (hq : t.find? queue = some q) (user : String) (state : FinalState) :
    ({ t with forest := t.forest.complete q user state } : QueueTree).Tallied
      (ended ++ [⟨queue, user, state⟩]) where
  wired := tallied.wired.of_same (t.forest.sameWires_complete q user state)
  known c hc := by
    rcases List.mem_append.1 hc with hc | hc
    · exact tallied.known c hc
    · obtain rfl := List.mem_singleton.1 hc
      exact ⟨q, hq⟩
  shows {name p} hp := by
    have hp : t.find? name = some p := hp
    have wired := tallied.wired
    have label := (wired.labelled (wired.tied hp).sink).2
    let report : Report := ⟨(t.forest.node q).sink, user, state⟩
    -- The sink stands on the line from that of `q` if its path is that of `q` or lies above it.
    have reached : t.forest.metrics.reached (t.forest.node p).sink [report] =
        if name ∈ Path.ancestors queue then [⟨name, user, state⟩] else [] := by
      have line := wired.mem_line_iff hp hq
      rw [Metrics.reached, List.filter_singleton, label]
      by_cases above : name ∈ Path.ancestors queue <;> simp [report, line, above]
    have shows := Metrics.shows_complete (wired.sink_lt hp) (tallied.shows hp) report
    rw [reached] at shows
    rw [endedBelow_append]
    exact shows

theorem withSink (new : t.find? name = none) (p : QueueId) :
    (t.withSink name p).Tallied ended where
  wired := tallied.wired.withSink new p
  known := tallied.known
  shows {path q} hq := by
    have hq : t.find? path = some q := hq
    have old := (tallied.wired.sink_lt hq).ne
    exact shows_withSink (fun same => absurd same old) (tallied.shows hq) name p

/-- Nothing ended at a queue that is new or below it. -/
theorem endedBelow_eq_nil (new : t.find? name = none) : endedBelow name ended = [] := by
  rw [endedBelow, List.map_eq_nil_iff, List.filter_eq_nil_iff]
  intro c hc above
  obtain ⟨q, hq⟩ := tallied.known c hc
  obtain ⟨p, hp⟩ := (tallied.wired.tied hq).above name (by simpa using above)
  rw [new] at hp
  cases hp

theorem adds (adds : Adds t t' n p) (new : t.find? n.name = none)
    (hp : t.parentOf? n.name = some p) (own : n.sink = t.forest.metrics.size) :
    t'.Tallied ended where
  wired := tallied.wired.adds adds new hp own
  known c hc := by
    obtain ⟨q, hq⟩ := tallied.known c hc
    exact ⟨q, adds.find?_of_known new hq⟩
  shows {name q} hq := by
    rw [adds.metrics, adds.sink]
    rw [adds.find? new] at hq
    split at hq
    · next same =>
      -- The sink is as new as the queue, and nothing ended below a name that was not there.
      obtain rfl : _ = q := Option.some.inj hq
      rw [if_pos rfl, own, same, tallied.endedBelow_eq_nil new, sink_withSink, if_pos rfl]
      exact Sink.shows_nil rfl rfl
    · have old : q ≠ t.forest.nodes.size := (tallied.wired.tied hq).known.ne
      rw [if_neg old]
      -- Of what was there before, only the sink of the new queue makes a difference.
      have hq : (t.withSink n.name p).find? name = some q := hq
      exact (tallied.withSink new p).shows hq

theorem createLeaf (name : String) (policy : Policy) :
    (t.createLeaf name policy).1.Tallied ended := by
  apply t.createLeaf_preserves (P := fun t => t.Tallied ended) name policy tallied
  case refused =>
    intro parent new
    exact tallied.withSink new parent
  case added =>
    intro t' parent new hp adds
    exact tallied.adds adds new hp rfl

/-- What is counted at a queue ended there or at a queue below it. -/
theorem tally_eq (hq : t.find? name = some q) (state : FinalState) :
    (t.forest.metrics.sink (t.forest.node q).sink).tally.get state =
      ended.countP fun c => c.state = state ∧ name ∈ Path.ancestors c.queue := by
  rw [(tallied.shows hq).tally, endedBelow, List.countP_map, List.countP_filter]
  apply List.countP_congr
  intro c _
  simp

theorem tally_root (state : FinalState) :
    (t.forest.metrics.sink (t.forest.node t.root).sink).tally.get state =
      ended.countP fun c => c.state = state := by
  rw [tallied.tally_eq tallied.wired.top]
  -- Every path begins at the root, so all ends are at or below it.
  apply List.countP_congr
  intro c hc
  obtain ⟨q, hq⟩ := tallied.known c hc
  simp [(tallied.wired.tied hq).rooted]

end Tallied

end QueueTree

namespace System

theorem tallied_perform {s : System} {ended : List Completion} (tallied : s.tree.Tallied ended)
    (e : Event) : (s.perform e).tree.Tallied ended := by
  rcases s.perform_cases e with ⟨name, policy, rfl⟩ | ⟨tree, same⟩
  · exact tallied.createLeaf name policy
  · rw [tree]
    exact tallied.of_origin same

/-- What could be looked up still can. -/
theorem find?_perform {s : System} {name : String} {q : QueueId}
    (hq : s.tree.find? name = some q) (e : Event) : (s.perform e).tree.find? name = some q := by
  rcases s.perform_cases e with ⟨other, policy, rfl⟩ | ⟨tree, -⟩
  · apply s.tree.createLeaf_preserves (P := fun t => t.find? name = some q) other policy hq
    case refused =>
      intro parent _
      exact hq
    case added =>
      intro t' parent new _ adds
      exact adds.find?_of_known new hq
  · rw [tree]
    exact hq

end System

/-- A tree with the applications that were accepted into its queues, each under a handle. -/
structure Desk where
  system : System
  applications : Table Application := ∅

/-- What is done at a desk.  Queues are given by name. -/
inductive Act where
  | perform (e : Event)
  | accept (handle queue user : String) (password : Option String) (priority : Priority)
  | move (handle queue : String)
  | start (handle : String) (attempt : AttemptId)
  | stop (handle : String) (state : FinalState)
  /-- An end that is reported to the sink of a queue, with no application at the desk. -/
  | complete (queue user : String) (state : FinalState)

namespace Desk

def tree (d : Desk) : QueueTree := d.system.tree

def put (d : Desk) (handle : String) (a : Application) : Desk :=
  { d with applications := d.applications.insert handle a }

def setForest (d : Desk) (f : Forest) : Desk := { d with system := d.system.setForest f }

/-- The desk after an act; fails if no queue has the name or no application the handle. -/
def act? (d : Desk) : Act → Option Desk
  | .perform e => some { d with system := d.system.perform e }
  | .accept handle queue user password priority =>
    (d.tree.find? queue).map fun q => d.put handle { queue := q, user, password, priority }
  | .move handle queue =>
    (d.tree.find? queue).bind fun q =>
      (d.applications.get? handle).map fun a => d.put handle (a.move q)
  | .start handle attempt =>
    (d.applications.get? handle).map fun a => d.put handle (a.start attempt)
  | .stop handle state =>
    (d.applications.get? handle).map fun a =>
      { d.setForest (d.tree.forest.stop a state) with
        applications := d.applications.erase handle }
  | .complete queue user state =>
    (d.tree.find? queue).map fun q => d.setForest (d.tree.forest.complete q user state)

def run? (d : Desk) : List Act → Option Desk
  | [] => some d
  | act :: rest => (d.act? act).bind fun d => d.run? rest

end Desk

/-- For whom an application was accepted, and the queue that it is bound to. -/
structure Binding where
  queue : String
  user : String

/-- What acts say by themselves: how each application is bound, and what ended where, the oldest
first. -/
structure Book where
  bound : Table Binding := ∅
  ended : List Completion := []

namespace Book

def note (b : Book) : Act → Book
  | .perform _ => b
  | .accept handle queue user _ _ => { b with bound := b.bound.insert handle ⟨queue, user⟩ }
  | .move handle queue =>
    match b.bound.get? handle with
    | some x => { b with bound := b.bound.insert handle { x with queue } }
    | none => b
  | .start _ _ => b
  | .stop handle state =>
    match b.bound.get? handle with
    | some x =>
      { bound := b.bound.erase handle, ended := b.ended ++ [⟨x.queue, x.user, state⟩] }
    | none => b
  | .complete queue user state => { b with ended := b.ended ++ [⟨queue, user, state⟩] }

def ofActs (acts : List Act) : Book := acts.foldl note {}

end Book

namespace Desk

/-- An application is bound as it is noted. -/
def Binds (d : Desk) (a : Application) (x : Binding) : Prop :=
  d.tree.find? x.queue = some a.queue ∧ x.user = a.user

/-- A desk at which all is as the book says. -/
structure Agrees (d : Desk) (b : Book) : Prop where
  tallied : d.tree.Tallied b.ended
  bound : ∀ handle, Option.Rel d.Binds (d.applications.get? handle) (b.bound.get? handle)

section

variable {d d' : Desk} {b : Book}

/-- An application at the desk is in the book. -/
theorem Agrees.exists_binding (agrees : d.Agrees b) {handle : String} {a : Application}
    (ha : d.applications.get? handle = some a) :
    ∃ x, b.bound.get? handle = some x ∧ d.Binds a x := by
  have bound := agrees.bound handle
  rw [ha] at bound
  generalize b.bound.get? handle = noted at bound
  cases bound with
  | some binds => exact ⟨_, rfl, binds⟩

theorem Agrees.put (agrees : d.Agrees b) {a : Application} {x : Binding} (binds : d.Binds a x)
    (handle : String) : (d.put handle a).Agrees { b with bound := b.bound.insert handle x } where
  tallied := agrees.tallied
  bound other := by
    show Option.Rel d.Binds ((d.applications.insert handle a).get? other) _
    rw [Table.get?_insert, Table.get?_insert]
    split
    · exact .some binds
    · exact agrees.bound other

theorem Agrees.perform (agrees : d.Agrees b) (e : Event) :
    ({ d with system := d.system.perform e } : Desk).Agrees b where
  tallied := System.tallied_perform agrees.tallied e
  bound handle := by
    have bound := agrees.bound handle
    show Option.Rel _ (d.applications.get? handle) _
    generalize d.applications.get? handle = a, b.bound.get? handle = x at bound
    cases bound with
    | some binds => exact .some ⟨System.find?_perform binds.1 e, binds.2⟩
    | none => exact .none

theorem Agrees.stop (agrees : d.Agrees b) {handle : String} {a : Application} {x : Binding}
    (binds : d.Binds a x) (state : FinalState) :
    ({ d.setForest (d.tree.forest.stop a state) with
        applications := d.applications.erase handle } : Desk).Agrees
      { bound := b.bound.erase handle, ended := b.ended ++ [⟨x.queue, x.user, state⟩] } where
  tallied := by
    show QueueTree.Tallied _ (b.ended ++ [⟨x.queue, x.user, state⟩])
    rw [binds.2]
    exact agrees.tallied.complete binds.1 a.user state
  bound other := by
    show Option.Rel d.Binds ((d.applications.erase handle).get? other) _
    rw [Table.get?_erase, Table.get?_erase]
    split
    · exact .none
    · exact agrees.bound other

theorem Agrees.act (agrees : d.Agrees b) {act : Act} (done : d.act? act = some d') :
    d'.Agrees (b.note act) := by
  cases act with
  | perform e =>
    cases done
    exact agrees.perform e
  | accept handle queue user password priority =>
    obtain ⟨q, hq, rfl⟩ := Option.map_eq_some_iff.1 done
    exact agrees.put ⟨hq, rfl⟩ handle
  | move handle queue =>
    obtain ⟨q, hq, done⟩ := Option.bind_eq_some_iff.1 done
    obtain ⟨a, ha, rfl⟩ := Option.map_eq_some_iff.1 done
    obtain ⟨x, hx, -, user⟩ := agrees.exists_binding ha
    have binds : d.Binds (a.move q) { x with queue } := ⟨hq, user⟩
    rw [Book.note, hx]
    exact agrees.put binds handle
  | start handle attempt =>
    obtain ⟨a, ha, rfl⟩ := Option.map_eq_some_iff.1 done
    obtain ⟨x, hx, binds⟩ := agrees.exists_binding ha
    -- A new attempt leaves the application where it is.
    have same : b.bound.insert handle x = b.bound := by
      apply Table.ext_get?
      intro other
      rw [Table.get?_insert]
      split
      · next h => rw [h, hx]
      · rfl
    have kept := agrees.put (a := a.start attempt) binds handle
    rwa [same] at kept
  | stop handle state =>
    obtain ⟨a, ha, rfl⟩ := Option.map_eq_some_iff.1 done
    obtain ⟨x, hx, binds⟩ := agrees.exists_binding ha
    rw [Book.note, hx]
    exact agrees.stop binds state
  | complete queue user state =>
    obtain ⟨q, hq, rfl⟩ := Option.map_eq_some_iff.1 done
    exact ⟨agrees.tallied.complete hq user state, agrees.bound⟩

theorem Agrees.run (agrees : d.Agrees b) {acts : List Act} (done : d.run? acts = some d') :
    d'.Agrees (acts.foldl Book.note b) := by
  induction acts generalizing d b with
  | nil =>
    cases done
    exact agrees
  | cons act rest ih =>
    obtain ⟨d₁, first, done⟩ := Option.bind_eq_some_iff.1 done
    exact ih (agrees.act first) done

end

/-- After any acts at a tree that was built, leaves created meanwhile included, every queue has the
sink under its name, and the sink counts what ended at the queue or below its path, each end once:
the queue at which an application ends is the one that it was bound to last, whichever it was bound
to before.  The root counts all ends. -/
theorem tally_of_run {factory : QueueTree.PolicyFactory} {a : Allocation} {asked : List String}
    {t : QueueTree} (built : QueueTree.buildWith factory a = (asked, .ok t)) {acts : List Act}
    {d : Desk} (done : ({ system := { tree := t } } : Desk).run? acts = some d) :
    let f := d.tree.forest
    let count (q : QueueId) (state : FinalState) := (f.metrics.sink (f.node q).sink).tally.get state
    let ended := (Book.ofActs acts).ended
    (∀ name q, d.tree.find? name = some q →
      d.tree.sinks.get? name = some (f.node q).sink ∧
        (f.metrics.sink (f.node q).sink).queue = name ∧
        ∀ state, count q state =
          ended.countP fun c => c.state = state ∧ name ∈ Path.ancestors c.queue) ∧
      ∀ state, count d.tree.root state = ended.countP fun c => c.state = state := by
  intro f count ended
  have start : ({ system := { tree := t } } : Desk).Agrees {} :=
    ⟨QueueTree.tallied_of_build built, fun _ => .none⟩
  have tallied : d.tree.Tallied ended := (start.run done).tallied
  refine ⟨?_, tallied.tally_root⟩
  intro name q hq
  have sink := (tallied.wired.tied hq).sink
  exact ⟨sink, (tallied.wired.labelled sink).2, tallied.tally_eq hq⟩

/-- Two leaves, one of them two levels below the root. -/
def unevenLeaves : Allocation := { queues := Table.ofList [("root.a.x", {}), ("root.b", {})] }

/-- Two applications change places, one of them into a leaf that was not there at first. -/
def movingActs : List Act :=
  [.accept "j" "root.a.x" "ann" none default, .accept "k" "root.b" "bob" none default,
    .perform (.createLeaf "root.a.y" .fair), .move "j" "root.b", .start "k" ⟨⟨1⟩, 1⟩,
    .move "k" "root.a.y", .stop "j" .finished, .stop "k" .finished, .complete "root.a" "cy" .failed]

/-- Nothing ended at the leaf that an application was moved away from. -/
theorem tally_of_run_moving :
    ∃ asked t d, QueueTree.build QueueTree.resolveNamed unevenLeaves = (asked, .ok t) ∧
      ({ system := { tree := t } } : Desk).run? movingActs = some d ∧
      let f := d.tree.forest
      let count (q : QueueId) (state : FinalState) :=
        (f.metrics.sink (f.node q).sink).tally.get state
      d.tree.find? "root.a" = some 1 ∧ d.tree.find? "root.a.x" = some 2 ∧
        count 2 .finished = 0 ∧ count 1 .finished = 1 ∧ count 1 .failed = 1 ∧
        count d.tree.root .finished = 2 := by
  have runs : ∀ t ∈ (QueueTree.build QueueTree.resolveNamed unevenLeaves).2.toOption,
      (({ system := { tree := t } } : Desk).run? movingActs).map
        (fun d => (d.tree.find? "root.a", d.tree.find? "root.a.x")) = some (some 1, some 2) := by
    decide +kernel
  obtain ⟨asked, t, built, runs⟩ := QueueTree.exists_built (by decide +kernel) runs
  obtain ⟨d, done, found⟩ := Option.map_eq_some_iff.1 runs
  obtain ⟨upper, leaf⟩ := Prod.mk.inj found
  obtain ⟨each, all⟩ := tally_of_run built done
  obtain ⟨-, -, above⟩ := each "root.a" 1 upper
  obtain ⟨-, -, left⟩ := each "root.a.x" 2 leaf
  refine ⟨asked, t, d, built, done, upper, leaf, ?_, ?_, ?_, ?_⟩
  · exact (left .finished).trans (by decide +kernel)
  · exact (above .finished).trans (by decide +kernel)
  · exact (above .failed).trans (by decide +kernel)
  · exact (all .finished).trans (by decide +kernel)

end Desk

end FairShare
