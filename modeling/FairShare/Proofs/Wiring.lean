import FairShare.Application
import FairShare.Proofs.Building
import FairShare.Proofs.Completions
import FairShare.Proofs.Origin

/-!
Sinks stand above each other as the queues do.  A tree keeps its sinks by name, and a queue that is
created gives its sink the one under the name of its parent to pass on to.  So from the sink of a
queue up, the sinks are those of the paths from the name of the queue up to the root.
-/

namespace FairShare
namespace Metrics

variable {m : Metrics}

theorem sink_add (m : Metrics) (s : Sink) (id : SinkId) :
    (m.add s).1.sink id = if id = m.size then s else m.sink id := by
  by_cases new : id = m.size
  · simp [add, sink, Array.getD_eq_getD_getElem?, new]
  · simp [add, sink, Array.getD_eq_getD_getElem?, Array.getElem?_push, new]

theorem line_add (s : Sink) {id : SinkId} (known : id < m.size) :
    (m.add s).1.line id = m.line id := by
  apply line_congr
  intro older le
  rw [sink_add, if_neg (le.trans_lt known).ne]

end Metrics

namespace Forest

/-- Forests with the same queues and sinks, as far as names and parents of sinks go. -/
structure SameWires (f g : Forest) : Prop where
  size : g.nodes.size = f.nodes.size
  name : ∀ q, (g.node q).name = (f.node q).name
  sink : ∀ q, (g.node q).sink = (f.node q).sink
  count : g.metrics.size = f.metrics.size
  queue : ∀ s, (g.metrics.sink s).queue = (f.metrics.sink s).queue
  parent : ∀ s, (g.metrics.sink s).parent = (f.metrics.sink s).parent

theorem sameWires_of_origin {f g : Forest} (h : g.origin = f.origin) : SameWires f g where
  size := size_of_origin h
  name := field_of_origin Node.name Node.origin_name h
  sink := field_of_origin Node.sink Node.origin_sink h
  count := size_metrics_of_origin h
  queue := sink_field_of_origin Sink.queue (fun _ => rfl) h
  parent := sink_field_of_origin Sink.parent (fun _ => rfl) h

theorem sameWires_complete (f : Forest) (q : QueueId) (user : String) (state : FinalState) :
    SameWires f (f.complete q user state) where
  size := rfl
  name _ := rfl
  sink _ := rfl
  count := Metrics.size_complete
  queue := Metrics.field_complete Sink.queue fun _ _ _ => rfl
  parent := Metrics.field_complete Sink.parent fun _ _ _ => rfl

end Forest

namespace QueueTree

/-- A queue that is looked up under a name, and what is found above it. -/
structure Tied (t : QueueTree) (name : String) (q : QueueId) : Prop where
  known : q < t.forest.nodes.size
  bears : (t.forest.node q).name = name
  /-- The sinks from that of the queue up are those under the paths from its name up. -/
  line : (Path.ancestors name).map t.sinks.get? =
    (t.forest.metrics.line (t.forest.node q).sink).map some
  above : ∀ path ∈ Path.ancestors name, ∃ p, t.find? path = some p
  rooted : Path.root ∈ Path.ancestors name

/-- Queues and sinks of a tree are found under the same names and stand above each other alike. -/
structure Wired (t : QueueTree) : Prop where
  tied : ∀ {name q}, t.find? name = some q → t.Tied name q
  labelled : ∀ {name s}, t.sinks.get? name = some s →
    s < t.forest.metrics.size ∧ (t.forest.metrics.sink s).queue = name
  top : t.find? Path.root = some t.root

section

variable {t t' : QueueTree} {name path : String} {n : Node} {p q : QueueId}

theorem Tied.sink (tied : t.Tied name q) : t.sinks.get? name = some (t.forest.node q).sink := by
  have line := tied.line
  rw [Path.ancestors, Metrics.line] at line
  exact (List.cons.inj line).1

theorem sink_withSink (t : QueueTree) (name : String) (p : QueueId) (s : SinkId) :
    (t.withSink name p).forest.metrics.sink s =
      if s = t.forest.metrics.size then
        { queue := name, parent := t.sinks.get? (t.forest.node p).name, capacity := logCapacity }
      else t.forest.metrics.sink s :=
  Metrics.sink_add t.forest.metrics _ s

namespace Wired

theorem sink_lt (wired : t.Wired) (hq : t.find? name = some q) :
    (t.forest.node q).sink < t.forest.metrics.size :=
  (wired.labelled (wired.tied hq).sink).1

/-- The sink of a queue is reached from those of the queues at and below its path. -/
theorem mem_line_iff (wired : t.Wired) (hp : t.find? path = some p) (hq : t.find? name = some q) :
    (t.forest.node p).sink ∈ t.forest.metrics.line (t.forest.node q).sink ↔
      path ∈ Path.ancestors name := by
  have own := (wired.tied hp).sink
  have reached : (t.forest.node p).sink ∈ t.forest.metrics.line (t.forest.node q).sink ↔
      some (t.forest.node p).sink ∈ (Path.ancestors name).map t.sinks.get? := by
    rw [(wired.tied hq).line]
    simp
  rw [reached, List.mem_map]
  constructor
  · rintro ⟨other, above, same⟩
    -- Two names do not share a sink, since a sink bears the name of its queue.
    obtain ⟨-, label⟩ := wired.labelled own
    obtain ⟨-, label'⟩ := wired.labelled same
    rwa [← label, label']
  · intro above
    exact ⟨path, above, own⟩

theorem of_same (wired : t.Wired) {g : Forest} (same : t.forest.SameWires g) :
    ({ t with forest := g } : QueueTree).Wired where
  tied {name q} hq := by
    have tied := wired.tied hq
    refine ⟨?_, ?_, ?_, tied.above, tied.rooted⟩
    · exact same.size ▸ tied.known
    · exact (same.name q).trans tied.bears
    · have line : g.metrics.line (t.forest.node q).sink =
          t.forest.metrics.line (t.forest.node q).sink :=
        Metrics.line_congr fun s _ => same.parent s
      show _ = (g.metrics.line (g.node q).sink).map some
      rw [same.sink, line]
      exact tied.line
  labelled {name s} hs := by
    obtain ⟨known, label⟩ := wired.labelled hs
    exact ⟨same.count ▸ known, (same.queue s).trans label⟩
  top := wired.top

/-- A sink under a name without a queue is above no other. -/
theorem withSink (wired : t.Wired) (new : t.find? name = none) (p : QueueId) :
    (t.withSink name p).Wired where
  tied {path q} hq := by
    have tied := wired.tied hq
    refine ⟨tied.known, tied.bears, ?_, tied.above, tied.rooted⟩
    have line : (t.withSink name p).forest.metrics.line (t.forest.node q).sink =
        t.forest.metrics.line (t.forest.node q).sink :=
      Metrics.line_add _ (wired.sink_lt hq)
    show (Path.ancestors path).map (t.sinks.insert name _).get? =
      ((t.withSink name p).forest.metrics.line (t.forest.node q).sink).map some
    rw [line, ← tied.line]
    -- The paths above a queue all have queues, so none of them is the name of the new sink.
    apply List.map_congr_left
    intro above habove
    obtain ⟨r, hr⟩ := tied.above above habove
    rw [Table.get?_insert, if_neg]
    rintro rfl
    rw [new] at hr
    cases hr
  labelled {path s} hs := by
    have hs : (t.sinks.insert name t.forest.metrics.size).get? path = some s := hs
    have size : (t.withSink name p).forest.metrics.size = t.forest.metrics.size + 1 :=
      Array.size_push _
    rw [Table.get?_insert] at hs
    rw [size, sink_withSink]
    split at hs
    · next same =>
      cases hs
      rw [if_pos rfl]
      exact ⟨Nat.lt_succ_self _, same.symm⟩
    · obtain ⟨known, label⟩ := wired.labelled hs
      rw [if_neg known.ne]
      exact ⟨Nat.lt_succ_of_lt known, label⟩
  top := wired.top

end Wired

theorem Adds.find? (adds : Adds t t' n p) (new : t.find? n.name = none) (name : String) :
    t'.find? name = if name = n.name then some t.forest.nodes.size else t.find? name := by
  have absent : t.composites.get? n.name = none := by
    rw [QueueTree.find?] at new
    cases h : t.composites.get? n.name with
    | none => rfl
    | some q => simp [h] at new
  rw [QueueTree.find?, QueueTree.find?, adds.composites, adds.leaves]
  cases n.isComposite <;> by_cases same : name = n.name <;> simp [same, absent]

theorem Adds.sink (adds : Adds t t' n p) (q : QueueId) : (t'.forest.node q).sink =
    if q = t.forest.nodes.size then n.sink else (t.forest.node q).sink := by
  obtain ⟨metrics, forest⟩ := adds.forest
  have fixed (k : Composite → Composite) (n : Node) : (n.mapComposite k).sink = n.sink := by
    rw [← Node.origin_sink, Node.origin_mapComposite, Node.origin_sink]
  rw [forest, Forest.node_grow_field fixed, Forest.node_add]
  split <;> rfl

/-- What could be looked up still can. -/
theorem Adds.find?_of_known (adds : Adds t t' n p) (new : t.find? n.name = none)
    (hq : t.find? name = some q) : t'.find? name = some q := by
  rw [adds.find? new, if_neg]
  · exact hq
  · rintro rfl
    rw [new] at hq
    cases hq

theorem exists_of_parentOf? (hp : t.parentOf? name = some p) :
    ∃ above, Path.parent? name = some above ∧ t.find? above = some p := by
  obtain ⟨above, habove, h⟩ := Option.bind_eq_some_iff.1 hp
  exact ⟨above, habove, by rw [QueueTree.find?, h]; rfl⟩

/-- The sink of a queue that is created passes on to that of the queue it is created below. -/
theorem Wired.line_withSink (wired : t.Wired) (name : String) (hp : t.find? path = some p) :
    (t.withSink name p).forest.metrics.line t.forest.metrics.size =
      t.forest.metrics.size ::
        (t.withSink name p).forest.metrics.line (t.forest.node p).sink := by
  have tied := wired.tied hp
  apply Metrics.line_of_parent
  · rw [sink_withSink, if_pos rfl, tied.bears]
    exact tied.sink
  · exact wired.sink_lt hp

section

variable (wired : t.Wired) (created : Adds t t' n p) (new : t.find? n.name = none)

include wired created new

/-- A queue that was there before is tied as it was. -/
theorem Wired.tied_of_known (hq : t.find? name = some q) : t'.Tied name q := by
  have hq : (t.withSink n.name p).find? name = some q := hq
  have tied := (wired.withSink new p).tied hq
  have old : q ≠ t.forest.nodes.size := tied.known.ne
  refine ⟨?_, ?_, ?_, ?_, tied.rooted⟩
  · rw [created.size]
    exact Nat.lt_succ_of_lt tied.known
  · rw [created.field Node.name Node.roster_name, if_neg old]
    exact tied.bears
  · rw [created.sink, if_neg old, created.sinks, created.metrics]
    exact tied.line
  · intro path hpath
    obtain ⟨r, hr⟩ := tied.above path hpath
    exact ⟨r, created.find?_of_known new hr⟩

/-- The new queue is tied to the sinks of the queue it is created below. -/
theorem Wired.tied_new (hp : t.parentOf? n.name = some p) (own : n.sink = t.forest.metrics.size) :
    t'.Tied n.name t.forest.nodes.size := by
  obtain ⟨above, habove, hp⟩ := exists_of_parentOf? hp
  have ancestors : Path.ancestors n.name = n.name :: Path.ancestors above := by
    rw [Path.ancestors_eq, habove]
    rfl
  refine ⟨?_, ?_, ?_, ?_, ?_⟩
  · -- Numbers are given in order.
    rw [created.size]
    exact Nat.lt_succ_self _
  · rw [created.field Node.name Node.roster_name, if_pos rfl]
  · -- One more path above the others, and one more sink to pass on to theirs.
    have sink : (t'.forest.node t.forest.nodes.size).sink = t.forest.metrics.size := by
      rw [created.sink, if_pos rfl, own]
    have first : (t.withSink n.name p).sinks.get? n.name = some t.forest.metrics.size :=
      (Table.get?_insert t.sinks n.name n.name _).trans (if_pos rfl)
    have found : (t.withSink n.name p).find? above = some p := hp
    have rest := ((wired.withSink new p).tied found).line
    rw [ancestors, sink, created.sinks, created.metrics, wired.line_withSink n.name hp,
      List.map_cons, List.map_cons, first, rest]
    rfl
  · intro path hpath
    rw [ancestors] at hpath
    rcases List.mem_cons.1 hpath with rfl | hpath
    · exact ⟨_, by rw [created.find? new, if_pos rfl]⟩
    · obtain ⟨r, hr⟩ := (wired.tied hp).above path hpath
      exact ⟨r, created.find?_of_known new hr⟩
  · rw [ancestors]
    exact List.mem_cons_of_mem _ (wired.tied hp).rooted

/-- A queue that is created keeps a tree wired. -/
theorem Wired.adds (hp : t.parentOf? n.name = some p) (own : n.sink = t.forest.metrics.size) :
    t'.Wired where
  tied {name q} hq := by
    rw [created.find? new] at hq
    split at hq
    · next same =>
      obtain rfl : _ = q := Option.some.inj hq
      exact same ▸ wired.tied_new created new hp own
    · exact wired.tied_of_known created new hq
  labelled hs := by
    rw [created.metrics]
    exact (wired.withSink new p).labelled (created.sinks ▸ hs)
  top := by
    rw [created.root]
    exact created.find?_of_known new wired.top

end

/-- A tree with a root only is wired, since the sink of the root passes nothing on. -/
theorem wired_root {s : Sink} (nodes : t.forest.nodes = #[n]) (name : n.name = Path.root)
    (sink : n.sink = 0) (metrics : t.forest.metrics = #[s]) (queue : s.queue = Path.root)
    (parent : s.parent = none) (root : t.root = 0)
    (lookup : ∀ name, t.find? name = if name = Path.root then some 0 else none)
    (sinks : ∀ name, t.sinks.get? name = if name = Path.root then some 0 else none) :
    t.Wired := by
  have node : t.forest.node 0 = n := by rw [node_of_single nodes, if_pos rfl]
  have first : t.forest.metrics.sink 0 = s := by rw [metrics]; rfl
  have alone : Path.ancestors Path.root = [Path.root] := by decide
  refine ⟨fun {name q} hq => ?tied, ?labelled, ?top⟩
  case tied =>
    rw [lookup] at hq
    split at hq
    · next same =>
      cases hq
      subst same
      refine ⟨by simp [nodes], by rw [node, name], ?_, ?_, ?_⟩
      · have line : t.forest.metrics.line 0 = [0] := by
          apply Metrics.line_of_top
          rw [first, parent]
          simp
        rw [node, sink, line, alone, List.map_singleton, sinks, if_pos rfl, List.map_singleton]
      · intro path hpath
        rw [alone, List.mem_singleton] at hpath
        exact ⟨0, by rw [lookup, if_pos hpath]⟩
      · exact List.mem_cons_self
    · cases hq
  case labelled =>
    intro name s hs
    rw [sinks] at hs
    split at hs
    · next same =>
      cases hs
      exact ⟨by simp [metrics], by rw [first, queue, same]⟩
    · cases hs
  case top => rw [lookup, if_pos rfl, root]

/-- A tree that is being built, with the names that got a queue so far and those to come. -/
structure Growing (done rest : List String) (t : QueueTree) : Prop where
  wired : t.Wired
  once : (done ++ rest).Nodup
  among : ∀ {name q}, t.find? name = some q → name ∈ done
  quiet : ∀ s, (t.forest.metrics.sink s).Shows []

/-- A new sink shows nothing, and the others what they showed. -/
theorem shows_withSink {l : List Completion} {s : SinkId}
    (new : s = t.forest.metrics.size → l = []) (shows : (t.forest.metrics.sink s).Shows l)
    (name : String) (p : QueueId) :
    ((t.withSink name p).forest.metrics.sink s).Shows l := by
  rw [sink_withSink]
  split
  · next same =>
    rw [new same]
    exact Sink.shows_nil rfl rfl
  · exact shows

theorem growing_rootTree (a : Allocation) (policy : Policy) {rest : List String}
    (once : (Path.root :: rest).Nodup) :
    Growing [Path.root] rest (rootTree { allocation := a } policy) := by
  have single (name : String) : ((∅ : Table Nat).insert Path.root 0).get? name =
      if name = Path.root then some 0 else none := Table.get?_insert _ _ _ _
  have lookup (name : String) : (rootTree { allocation := a } policy).find? name =
      if name = Path.root then some 0 else none := by
    show (((∅ : Table Nat).insert Path.root 0).get? name <|> none) = _
    rw [single]
    split <;> rfl
  refine ⟨?_, once, ?_, ?_⟩
  · exact wired_root rfl rfl rfl rfl rfl rfl rfl lookup single
  · intro name q hq
    rw [lookup] at hq
    split at hq
    · next same => exact List.mem_singleton.2 same
    · cases hq
  · intro s
    show ((Metrics.add #[] _).1.sink s).Shows []
    rw [Metrics.sink_add]
    split <;> exact Sink.shows_nil rfl rfl

/-- A planned queue is created under a name that is new. -/
theorem Growing.next {a : Allocation} {done rest : List String} {policy : Policy}
    (growing : Growing done (name :: rest) t) (hp : t.parentOf? name = some p)
    (created : createPlanned a t name p policy = (t', .ok q)) :
    Growing (done ++ [name]) rest t' := by
  have new : t.find? name = none := by
    rw [Option.eq_none_iff_forall_not_mem]
    intro q hq
    exact List.disjoint_of_nodup_append growing.once (growing.among hq) List.mem_cons_self
  have creation := creation_planned (a := a) policy new hp
  rw [createPlanned] at created
  rw [created] at creation
  cases creation with
  | added applies adds =>
    refine ⟨growing.wired.adds adds new hp rfl, ?_, ?_, ?_⟩
    · rw [List.append_assoc, List.singleton_append]
      exact growing.once
    · intro path q hq
      rw [adds.find? new] at hq
      split at hq
      · next same => simp [same, newQueue]
      · exact List.mem_append_left _ (growing.among hq)
    · intro s
      rw [adds.metrics]
      exact shows_withSink (fun _ => rfl) (growing.quiet s) _ p

/-- The sinks of a tree that was built stand above each other as its queues do, and nothing was
reported to them. -/
theorem growing_of_build {factory : PolicyFactory} {a : Allocation} {asked : List String}
    (built : buildWith factory a = (asked, .ok t)) : ∃ done, Growing done [] t := by
  obtain ⟨-, policy, later, -, built⟩ := exists_root_of_build built
  have once : (Path.root :: (plannedNames a).filter (· ≠ Path.root)).Nodup := by
    rw [List.nodup_cons]
    exact ⟨by simp, (ascending_plannedNames a).nodup.filter _⟩
  refine ⟨_, addPlanned_induction ?_ _ built (growing_rootTree a policy once)⟩
  intro done name rest t parent policy t' q hp created growing
  exact growing.next hp created

end

end QueueTree
end FairShare
