import FairShare.Proofs.Counters
import FairShare.Proofs.Segments

/-!
The four accounts of a tree: its look-ups, the child lists, the parent links and the names.  While
nothing is attached or detached by hand they agree, whatever else is done.  The queues that child
lists lead to are those that can be looked up, and the depth of a queue is told by the dots of its
name.
-/

namespace FairShare
namespace Forest

/-- If every child is one level below its parent, a visit tells the level of every queue. -/
theorem level_of_mem_visit (level : QueueId → Nat) {s : Shape} {x : QueueId × Nat}
    (step : ∀ t ∈ s.parts, ∀ u ∈ t.subtrees, level u.id = level t.id + 1)
    (hx : x ∈ visit (level s.id) s) : x.2 = level x.1 := by
  induction s with
  | node q below ih =>
    rw [Shape.id_node, visit, visitAll_eq_flatMap] at hx
    rcases List.mem_cons.1 hx with rfl | hx
    · rfl
    · -- The visit of a child begins one level further down, and so does its level.
      obtain ⟨s, hs, hx⟩ := List.mem_flatMap.1 hx
      have child : level s.id = level q + 1 := step _ (Shape.self_mem_parts _) s hs
      rw [← child] at hx
      exact ih s hs (fun t ht => step t (Shape.mem_parts_node.2 (.inr ⟨s, hs, ht⟩))) hx

end Forest

namespace QueueTree

/-- The look-ups, the child lists, the parent links and the names of a tree agree. -/
structure Coherent (t : QueueTree) : Prop where
  /-- No name is that of a composite queue and of a leaf. -/
  apart : ∀ {name p q}, t.composites.get? name = some p → t.leaves.get? name ≠ some q
  bears : ∀ {name q}, t.find? name = some q → (t.forest.node q).name = name
  /-- A listing from the root shows every name once, and no other. -/
  listed : ((t.forest.listing t.root).map Listing.name).Perm t.names
  distinct : t.names.Nodup
  shown : ∀ e ∈ t.forest.listing t.root, e.depth = Path.dots e.name ∧
    (e.composite = true ↔ ∃ p, t.composites.get? e.name = some p) ∧
    (e.composite = false ↔ ∃ q, t.leaves.get? e.name = some q)
  top : t.composites.get? Path.root = some t.root
  /-- Every queue but the root is listed once, by the composite queue at its parent path, which is
  its parent. -/
  attached : ∀ {name q}, t.find? name = some q → name ≠ Path.root →
    ∃ above p, Path.parent? name = some above ∧ t.composites.get? above = some p ∧
      t.forest.parent? q = some p ∧ (t.forest.node p).children.count q = 1 ∧
      ∀ r ≠ p, q ∉ (t.forest.node r).children
  /-- No other queue is listed anywhere. -/
  children : ∀ {p c}, c ∈ (t.forest.node p).children →
    ∃ name, name ≠ Path.root ∧ t.find? name = some c
  health : t.forest.health t.root = ⟨true, t.names.length⟩

namespace Orderly

variable {t : QueueTree} (orderly : t.Orderly)

include orderly

/-- Every queue is the root or was created below it. -/
theorem root_or_above {q : QueueId} (known : q < t.forest.nodes.size) :
    q = t.root ∨ t.forest.Above t.root q := by
  induction q using Nat.strong_induction_on with
  | h q ih =>
    -- A parent was created before its children, so the way up ends, and it ends at the root.
    cases hp : (t.forest.node q).parent with
    | none => exact .inl (orderly.rooted known hp)
    | some p =>
      have older := orderly.linked.older hp
      rcases ih p older (older.trans known) with rfl | above
      · exact .inr (.parent hp)
      · exact .inr (.further hp above)

/-- Child lists lead from the root to every queue. -/
theorem mem_queues_root {q : QueueId} :
    q ∈ t.forest.queues t.root ↔ q < t.forest.nodes.size := by
  rw [orderly.linked.mem_queues orderly.known_root]
  constructor
  · rintro (rfl | above)
    · exact orderly.known_root
    · exact above.lt_size
  · exact orderly.root_or_above

/-- A queue is of the kind of the table that its name is in. -/
theorem isComposite_iff {composite : Bool} {table : Table QueueId}
    (indexes : t.forest.Indexes composite table) {q : QueueId} (known : q < t.forest.nodes.size) :
    (t.forest.node q).isComposite = composite ↔
      ∃ p, table.get? (t.forest.node q).name = some p := by
  constructor
  · intro kind
    exact ⟨q, (indexes _ q).2 ⟨known, rfl, kind⟩⟩
  · rintro ⟨p, hp⟩
    obtain ⟨known', bears, kind⟩ := (indexes _ p).1 hp
    rwa [orderly.distinct known known' bears.symm]

theorem listing_perm_names : ((t.forest.listing t.root).map Listing.name).Perm t.names := by
  have names : (t.forest.listing t.root).map Listing.name =
      (t.forest.queues t.root).map fun q => (t.forest.node q).name := by
    rw [Forest.listing, Forest.queues, List.map_map, List.map_map]
    rfl
  have tree := orderly.linked.isTree orderly.known_root
  have distinct : ((t.forest.queues t.root).map fun q => (t.forest.node q).name).Nodup := by
    apply List.Nodup.map_on _ tree.distinct
    intro p hp q hq same
    exact orderly.distinct (tree.known p hp) (tree.known q hq) same
  rw [names]
  -- Neither list names a queue twice, so it is enough that they have the same names.
  apply (List.perm_ext_iff_of_nodup distinct t.ascending_names.nodup).2
  intro name
  rw [t.mem_names, List.mem_map]
  constructor
  · rintro ⟨q, hq, rfl⟩
    exact ⟨q, orderly.find?_iff.2 ⟨tree.known q hq, rfl⟩⟩
  · rintro ⟨q, hq⟩
    obtain ⟨known, bears⟩ := orderly.find?_iff.1 hq
    exact ⟨q, orderly.mem_queues_root.2 known, bears⟩

/-- The name of a child has one dot more than that of its parent. -/
theorem dots_child {p c : QueueId} (hc : c ∈ (t.forest.node p).children) :
    Path.dots (t.forest.node c).name = Path.dots (t.forest.node p).name + 1 := by
  have hp := orderly.linked.own hc
  have parent := orderly.parent (Forest.lt_size_of_parent hp)
  obtain ⟨above, habove, h⟩ := Option.bind_eq_some_iff.1 (parent.symm.trans hp)
  obtain ⟨-, rfl, -⟩ := (orderly.composites above p).1 h
  exact Path.dots_of_parent? habove

theorem depth_of_mem_listing {e : Listing} (he : e ∈ t.forest.listing t.root) :
    ∃ q < t.forest.nodes.size, e.name = (t.forest.node q).name ∧
      e.composite = (t.forest.node q).isComposite ∧ e.depth = Path.dots e.name := by
  obtain ⟨x, hx, rfl⟩ := List.mem_map.1 he
  have tree := orderly.linked.isTree orderly.known_root
  have known : x.1 < t.forest.nodes.size := tree.known _ (List.mem_map_of_mem hx)
  refine ⟨x.1, known, rfl, rfl, ?_⟩
  have start : Path.dots (t.forest.node (t.forest.shape t.root).id).name = 0 := by
    rw [Forest.shape, Forest.id_unfold, orderly.name_root]
    decide
  apply Forest.level_of_mem_visit (fun q => Path.dots (t.forest.node q).name) _ (start ▸ hx)
  intro s hs u hu
  apply orderly.dots_child
  rw [tree.unfolds s hs]
  exact List.mem_map_of_mem hu

/-- Where look-ups and queues agree, so do all accounts. -/
theorem coherent : t.Coherent where
  apart {name p q} hp hq := by
    obtain ⟨known, bears, composite⟩ := (orderly.composites name p).1 hp
    obtain ⟨known', bears', leaf⟩ := (orderly.leaves name q).1 hq
    have same := orderly.distinct known known' (bears.trans bears'.symm)
    rw [same, leaf] at composite
    cases composite
  bears hq := (orderly.find?_iff.1 hq).2
  listed := orderly.listing_perm_names
  distinct := t.ascending_names.nodup
  shown e he := by
    obtain ⟨q, known, name, composite, depth⟩ := orderly.depth_of_mem_listing he
    rw [composite, name]
    exact ⟨name ▸ depth, orderly.isComposite_iff orderly.composites known,
      orderly.isComposite_iff orderly.leaves known⟩
  top := orderly.top
  attached hq other := by
    obtain ⟨above, p, habove, hp, parent, once, alone⟩ := orderly.attached hq other
    refine ⟨above, p, habove, hp, ?_, once, alone⟩
    rw [orderly.linked.parent?_eq, parent]
  children hc := orderly.find?_of_child hc
  health := by
    have length := orderly.listing_perm_names.length_eq
    rw [List.length_map] at length
    rw [Forest.health, length]

end Orderly

end QueueTree

namespace System

/-- Whatever is done with a tree that was built, but for attaching and detaching by hand, its
look-ups, child lists, parent links and names go on to agree. -/
theorem coherent_of_run {factory : QueueTree.PolicyFactory} {a : Allocation} {asked : List String}
    {t : QueueTree} (built : QueueTree.buildWith factory a = (asked, .ok t)) {events : List Event}
    (stays : ∀ e ∈ events, e.rearranges = false) : (run { tree := t } events).tree.Coherent :=
  (orderly_run (s := { tree := t }) (QueueTree.grown_of_build built).toOrderly stays).coherent

/-- A root that orders its children by name, the last first. -/
def descending : Allocation :=
  { defaultPolicy := some "name-desc", queues := Table.ofList [("root.a", {})] }

/-- One leaf is created and three are refused, a container is placed by an assignment and another one
in a cycle, and the allocation is replaced. -/
def mixedRun : List Event :=
  [.createLeaf "root.b" .nameDesc, .createLeaf "root.b" .nameDesc, .createLeaf "root.a.x" .nameDesc,
    .createLeaf "root.c" .rootOnly, .submit 2 ⟨⟨1⟩, 1⟩ "ann",
    .request 2 ⟨⟨1⟩, 1⟩ (.ofMemoryCores 1 1), .request 2 ⟨⟨1⟩, 1⟩ (.ofMemoryCores 2 1),
    .assign 0 ⟨"m", .ofMemoryCores 8 8, none⟩, .start (.ofMemoryCores 8 8) false 4,
    .cycle [⟨"m", .ofMemoryCores 7 7, none⟩] 5, .finish 2 ⟨⟨1⟩, 1⟩, .reload descending]

/-- The children of the root are in another order afterwards. -/
theorem coherent_of_run_mixed :
    ∃ asked t, QueueTree.build QueueTree.resolveNamed descending = (asked, .ok t) ∧
      let t' := (run { tree := t } mixedRun).tree
      t'.Coherent ∧ t'.names = ["root", "root.a", "root.b"] ∧
        t'.forest.listing t'.root =
          [⟨"root", 0, true⟩, ⟨"root.b", 1, false⟩, ⟨"root.a", 1, false⟩] := by
  let later (t : QueueTree) : QueueTree := (run { tree := t } mixedRun).tree
  have facts : ∀ t ∈ (QueueTree.build QueueTree.resolveNamed descending).2.toOption,
      (later t).names = ["root", "root.a", "root.b"] ∧
        (later t).forest.listing (later t).root =
          [⟨"root", 0, true⟩, ⟨"root.b", 1, false⟩, ⟨"root.a", 1, false⟩] := by decide +kernel
  obtain ⟨asked, t, built, names, listing⟩ := QueueTree.exists_built (by decide +kernel) facts
  have stays : ∀ e ∈ mixedRun, e.rearranges = false := by decide
  exact ⟨asked, t, built, coherent_of_run built stays, names, listing⟩

end System
end FairShare
