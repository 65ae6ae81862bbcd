import FairShare.Proofs.Creation

/-!
Trees whose look-ups and queues agree.  In a tree that is alive look-ups lead to composite queues
that are held.  In one that is orderly a name leads to the one queue that bears it, and the queues
are linked as their names say: whatever does not move queues keeps a tree orderly, and so does a
queue that is created below the composite queue at its parent path.
-/

namespace FairShare
namespace Forest

/-- A table leads from names to the queues that bear them, those of one kind. -/
def Indexes (f : Forest) (composite : Bool) (table : Table QueueId) : Prop :=
  ∀ name q, table.get? name = some q ↔
    q < f.nodes.size ∧ (f.node q).name = name ∧ (f.node q).isComposite = composite

variable {f g : Forest} {composite : Bool} {table : Table QueueId}

theorem Akin.indexes (akin : Akin f g) (indexes : f.Indexes composite table) :
    g.Indexes composite table := by
  intro name q
  rw [akin.size, akin.name, akin.composite]
  exact indexes name q

theorem Indexes.grow {n : Node} (indexes : f.Indexes composite table)
    (new : ∀ q < f.nodes.size, (f.node q).name ≠ n.name) (p : QueueId) :
    (f.grow n p).Indexes composite
      (if n.isComposite = composite then table.insert n.name f.nodes.size else table) := by
  intro name q
  have old (hq : q ≠ f.nodes.size) : q < f.nodes.size + 1 ↔ q < f.nodes.size :=
    Nat.lt_succ_iff_lt_or_eq.trans (or_iff_left hq)
  rw [size_grow, field_grow Node.name Node.roster_name,
    field_grow Node.isComposite Node.roster_isComposite]
  by_cases hq : q = f.nodes.size
  · -- No name led to the new queue before.
    have unknown : table.get? name ≠ some q := fun h => hq.not_lt ((indexes name q).1 h).1
    subst hq
    by_cases kind : n.isComposite = composite
    · by_cases same : name = n.name
      · simp [kind, same]
      · simp [kind, same, unknown, Ne.symm same]
    · simp [kind, unknown]
  · rw [if_neg hq, if_neg hq, old hq, ← indexes]
    by_cases kind : n.isComposite = composite
    · rw [if_pos kind, Table.get?_insert]
      split
      · next same =>
        -- A known queue does not bear the new name.
        have absent : table.get? name ≠ some q := by
          intro h
          obtain ⟨known, bears, -⟩ := (indexes name q).1 h
          exact new q known (bears.trans same)
        simp [absent, Ne.symm hq]
      · rfl
    · rw [if_neg kind]

end Forest

namespace QueueTree

/-- Every queue was created below a composite queue that is held, and look-ups of composite queues
lead to such queues. -/
structure Alive (t : QueueTree) : Prop where
  lineage : t.forest.Lineage
  composites : ∀ {name p}, t.composites.get? name = some p →
    (t.forest.node p).isComposite = true ∧ (t.forest.node p).released = false

namespace Alive

variable {t t' : QueueTree} (alive : t.Alive)

include alive

theorem of_kin (kin : Forest.Kin t.forest t'.forest) (composites : t'.composites = t.composites) :
    t'.Alive where
  lineage := kin.lineage alive.lineage
  composites {name p} h := by
    rw [kin.composite, kin.released]
    exact alive.composites (composites ▸ h)

theorem joins {n : Node} {p : QueueId} (hp : t.parentOf? n.name = some p)
    (parent : n.parent = some p) (plain : n.isScripted = false) (childless : n.children = []) :
    t.forest.Joins n p := by
  obtain ⟨above, -, h⟩ := Option.bind_eq_some_iff.1 hp
  obtain ⟨composite, held⟩ := alive.composites h
  exact ⟨parent, composite, held, plain, childless⟩

theorem adds {n : Node} {p : QueueId} (adds : Adds t t' n p) (joins : t.forest.Joins n p)
    (held : n.released = false) : t'.Alive where
  lineage := adds.lineage joins alive.lineage
  composites {name r} h := by
    rw [adds.field Node.isComposite Node.roster_isComposite,
      adds.field Node.released Node.roster_released]
    -- What could be looked up before is not the new queue.
    have old (h : t.composites.get? name = some r) : r ≠ t.forest.nodes.size := by
      rintro rfl
      exact Nat.lt_irrefl _ (Forest.lt_size_of_isComposite (alive.composites h).1)
    rw [adds.composites] at h
    split at h
    · next composite =>
      rw [Table.get?_insert] at h
      split at h
      · obtain rfl := Option.some.inj h
        exact ⟨(if_pos rfl).trans composite, (if_pos rfl).trans held⟩
      · rw [if_neg (old h), if_neg (old h)]
        exact alive.composites h
    · rw [if_neg (old h), if_neg (old h)]
      exact alive.composites h

end Alive

/-- The look-ups of a tree and its queues agree: names lead to the queues that bear them, and every
queue but the root was created below the composite queue at its parent path and is listed there. -/
structure Orderly (t : QueueTree) : Prop where
  linked : t.forest.Linked
  held : ∀ q, (t.forest.node q).released = false
  composites : t.forest.Indexes true t.composites
  leaves : t.forest.Indexes false t.leaves
  distinct : ∀ {p q}, p < t.forest.nodes.size → q < t.forest.nodes.size →
    (t.forest.node p).name = (t.forest.node q).name → p = q
  top : t.composites.get? Path.root = some t.root
  parent : ∀ {q}, q < t.forest.nodes.size →
    (t.forest.node q).parent = t.parentOf? (t.forest.node q).name
  rooted : ∀ {q}, q < t.forest.nodes.size → (t.forest.node q).parent = none → q = t.root

namespace Orderly

variable {t t' : QueueTree} (orderly : t.Orderly)

include orderly

theorem alive : t.Alive where
  lineage := orderly.linked.toLineage
  composites h := ⟨((orderly.composites _ _).1 h).2.2, orderly.held _⟩

theorem find?_iff {name : String} {q : QueueId} :
    t.find? name = some q ↔ q < t.forest.nodes.size ∧ (t.forest.node q).name = name := by
  rw [QueueTree.find?, Option.orElse_eq_orElse, Option.orElse_eq_or, Option.or_eq_some_iff,
    orderly.composites]
  constructor
  · rintro (⟨known, bears, -⟩ | ⟨-, h⟩)
    · exact ⟨known, bears⟩
    · obtain ⟨known, bears, -⟩ := (orderly.leaves name q).1 h
      exact ⟨known, bears⟩
  · rintro ⟨known, bears⟩
    cases kind : (t.forest.node q).isComposite with
    | true => exact .inl ⟨known, bears, rfl⟩
    | false =>
      refine .inr ⟨?_, (orderly.leaves name q).2 ⟨known, bears, kind⟩⟩
      rw [Option.eq_none_iff_forall_not_mem]
      intro p hp
      obtain ⟨known', bears', kind'⟩ := (orderly.composites name p).1 hp
      have same := orderly.distinct known' known (bears'.trans bears.symm)
      rw [same, kind] at kind'
      cases kind'

theorem known_root : t.root < t.forest.nodes.size :=
  ((orderly.composites _ _).1 orderly.top).1

theorem name_root : (t.forest.node t.root).name = Path.root :=
  ((orderly.composites _ _).1 orderly.top).2.1

/-- Every queue but the root is listed once, by the composite queue at its parent path, under which
it was created. -/
theorem attached {name : String} {q : QueueId} (hq : t.find? name = some q)
    (other : name ≠ Path.root) : ∃ above p, Path.parent? name = some above ∧
      t.composites.get? above = some p ∧ (t.forest.node q).parent = some p ∧
      (t.forest.node p).children.count q = 1 ∧ ∀ r ≠ p, q ∉ (t.forest.node r).children := by
  obtain ⟨known, rfl⟩ := orderly.find?_iff.1 hq
  have parent := orderly.parent known
  cases hp : (t.forest.node q).parent with
  | none =>
    obtain rfl := orderly.rooted known hp
    exact absurd orderly.name_root other
  | some p =>
    obtain ⟨above, habove, h⟩ := Option.bind_eq_some_iff.1 (parent.symm.trans hp)
    refine ⟨above, p, habove, h, rfl, ?_, fun r hr mem => ?_⟩
    · exact List.count_eq_one_of_mem (orderly.linked.once p) (orderly.linked.listed hp)
    · exact hr (Option.some.inj ((orderly.linked.own mem).symm.trans hp))

/-- No other queue is listed anywhere. -/
theorem find?_of_child {p c : QueueId} (hc : c ∈ (t.forest.node p).children) :
    ∃ name, name ≠ Path.root ∧ t.find? name = some c := by
  have hp := orderly.linked.own hc
  have known := Forest.lt_size_of_parent hp
  refine ⟨(t.forest.node c).name, fun h => ?_, orderly.find?_iff.2 ⟨known, rfl⟩⟩
  have root := orderly.parent known
  rw [hp, h] at root
  cases root

theorem of_akin (akin : Forest.Akin t.forest t'.forest) (root : t'.root = t.root)
    (composites : t'.composites = t.composites) (leaves : t'.leaves = t.leaves) : t'.Orderly where
  linked := orderly.linked.of_akin akin
  held q := (akin.released q).trans (orderly.held q)
  composites := composites ▸ akin.indexes orderly.composites
  leaves := leaves ▸ akin.indexes orderly.leaves
  distinct {p q} hp hq same := by
    rw [akin.name, akin.name] at same
    exact orderly.distinct (akin.size ▸ hp) (akin.size ▸ hq) same
  top := by rw [composites, root, orderly.top]
  parent {q} hq := by
    rw [akin.parent, akin.name, parentOf?, composites]
    exact orderly.parent (akin.size ▸ hq)
  rooted {q} hq h := (orderly.rooted (akin.size ▸ hq) (akin.parent q ▸ h)).trans root.symm

theorem parentOf?_adds {n : Node} {p : QueueId} (adds : Adds t t' n p)
    (new : t.find? n.name = none) {name : String} {r : QueueId}
    (h : t.parentOf? name = some r) : t'.parentOf? name = some r := by
  obtain ⟨above, hp, h⟩ := Option.bind_eq_some_iff.1 h
  have other : above ≠ n.name := by
    rintro rfl
    obtain ⟨known, bears, -⟩ := (orderly.composites _ r).1 h
    rw [orderly.find?_iff.2 ⟨known, bears⟩] at new
    cases new
  rw [parentOf?, hp, Option.bind_some, adds.composites]
  split
  · rw [Table.get?_insert, if_neg other, h]
  · exact h

/-- A queue that is created keeps a tree orderly. -/
theorem adds {n : Node} {p : QueueId} (adds : Adds t t' n p) (joins : t.forest.Joins n p)
    (held : n.released = false) (new : t.find? n.name = none)
    (hp : t.parentOf? n.name = some p) : t'.Orderly := by
  obtain ⟨metrics, forest⟩ := adds.forest
  -- The sinks do not matter.
  have start : ({ t with forest := { t.forest with metrics } } : QueueTree).Orderly :=
    orderly.of_akin (Forest.Akin.of_nodes rfl) rfl rfl rfl
  have joins' : ({ t.forest with metrics } : Forest).Joins n p :=
    ⟨joins.parent, joins.composite, joins.held, joins.plain, joins.childless⟩
  have absent : ∀ q < t.forest.nodes.size, (t.forest.node q).name ≠ n.name := by
    intro q hq bears
    rw [orderly.find?_iff.2 ⟨hq, bears⟩] at new
    cases new
  have old {q : QueueId} (h : q < t'.forest.nodes.size) (other : q ≠ t.forest.nodes.size) :
      q < t.forest.nodes.size :=
    (Nat.lt_succ_iff_lt_or_eq.1 (h.trans_eq adds.size)).resolve_right other
  refine
    { linked := by rw [forest]; exact joins'.linked start.linked
      held := fun q => ?held
      composites := by rw [forest, adds.composites]; exact start.composites.grow absent p
      leaves := by rw [forest, adds.leaves]; exact start.leaves.grow absent p
      distinct := fun {q r} hq hr same => ?distinct
      top := ?top
      parent := fun {q} hq => ?parent
      rooted := fun {q} hq h => ?rooted }
  case held =>
    rw [adds.field Node.released Node.roster_released]
    split
    · exact held
    · exact orderly.held q
  case distinct =>
    rw [adds.field Node.name Node.roster_name, adds.field Node.name Node.roster_name] at same
    by_cases hq' : q = t.forest.nodes.size <;> by_cases hr' : r = t.forest.nodes.size
    · rw [hq', hr']
    · rw [if_pos hq', if_neg hr'] at same
      exact absurd same.symm (absent r (old hr hr'))
    · rw [if_neg hq', if_pos hr'] at same
      exact absurd same (absent q (old hq hq'))
    · rw [if_neg hq', if_neg hr'] at same
      exact orderly.distinct (old hq hq') (old hr hr') same
  case top =>
    have other : Path.root ≠ n.name := by
      intro h
      exact absent t.root orderly.known_root (orderly.name_root.trans h)
    rw [adds.composites, adds.root]
    split
    · rw [Table.get?_insert, if_neg other, orderly.top]
    · exact orderly.top
  case parent =>
    rw [adds.field Node.parent Node.roster_parent, adds.field Node.name Node.roster_name]
    by_cases hq' : q = t.forest.nodes.size
    · rw [if_pos hq', if_pos hq', joins.parent, orderly.parentOf?_adds adds new hp]
    · rw [if_neg hq', if_neg hq']
      have before := orderly.parent (old hq hq')
      cases h : t.parentOf? (t.forest.node q).name with
      | some r => rw [before, h, orderly.parentOf?_adds adds new h]
      | none =>
        -- Only the root has no parent, whatever queues there are.
        obtain rfl := orderly.rooted (old hq hq') (before.trans h)
        rw [before, h, orderly.name_root]
        rfl
  case rooted =>
    rw [adds.field Node.parent Node.roster_parent] at h
    rw [adds.root]
    by_cases hq' : q = t.forest.nodes.size
    · rw [if_pos hq', joins.parent] at h
      cases h
    · rw [if_neg hq'] at h
      exact orderly.rooted (old hq hq') h

/-- Creating a leaf keeps a tree orderly, whether or not it succeeds. -/
theorem createLeaf (name : String) (policy : Policy) : (t.createLeaf name policy).1.Orderly :=
  t.createLeaf_preserves name policy orderly
    (fun _ _ => orderly.of_akin (Forest.Akin.of_nodes rfl) rfl rfl rfl)
    fun _ _ new hp adds => orderly.adds adds (orderly.alive.joins hp rfl rfl rfl) rfl new hp

end Orderly

end QueueTree

namespace Forest

variable {f g : Forest} {q : QueueId}

theorem assign_of_unknown (machine : Machine) (unknown : f.nodes.size ≤ q) :
    (f.assign machine q).1 = f := by
  have body : (f.node q).body = .leaf {} := by rw [node_of_size_le unknown]; rfl
  have own := f.id_shape q
  rw [assign]
  generalize f.shape q = s at own
  cases s with
  | node p below =>
    obtain rfl : p = q := own
    cases accepted : f.accepts machine (.node p below) <;>
      simp [offer, body, accepted, Leaf.grant?, Leaf.grantFirst]

/-- Where child lists lead to trees, an assignment only brings siblings into another order. -/
theorem Owned.alike_assign (owned : f.Owned) (machine : Machine) (q : QueueId) :
    Alike f (f.assign machine q).1 := by
  rcases Nat.lt_or_ge q f.nodes.size with known | unknown
  · obtain ⟨qs, placed, -⟩ := places_assign (owned.isTree known) machine
    exact placed.alike
  · rw [assign_of_unknown machine unknown]
    exact .refl f

theorem kin_changeLeaf {change : Leaf → Option Leaf} (h : f.changeLeaf? q change = some g) :
    Kin f g := by
  obtain ⟨-, m, -, -, rfl⟩ := changeLeaf?_eq_some.1 h
  exact kin_mapLeaf f q _

theorem kin_countAbove {count : Forest → QueueId → Forest} (each : ∀ f q, Kin f (count f q))
    (f : Forest) (q : QueueId) : Kin f (f.countAbove count q) := by
  rw [countAbove]
  induction f.ancestors q generalizing f with
  | nil => exact ⟨rfl, fun _ => rfl, fun _ => rfl, fun _ => rfl⟩
  | cons p rest ih => exact (each f p).trans (ih _)

theorem akin_submit {attempt : AttemptId} {user : String}
    (h : f.submit? q attempt user = some g) : Akin f g := by
  refine (sheds_submit h).toAlike.akin ?_
  obtain ⟨changed, taken, rfl⟩ := Option.map_eq_some_iff.1 h
  exact (kin_changeLeaf taken).trans
    (kin_countAbove (fun f p => kin_updateComposite f p _) changed q)

theorem akin_finish {attempt : AttemptId} {user : String}
    (h : f.finish? q attempt = some (g, user)) : Akin f g := by
  refine (sheds_finish h).toAlike.akin ?_
  obtain ⟨-, m, -, -, rfl⟩ := finish?_eq_some.1 h
  exact (kin_mapLeaf f q _).trans (kin_countAbove (fun f p => kin_updateComposite f p _) _ q)

end Forest

/-- Whether an operation attaches or detaches a queue by hand. -/
def Event.rearranges : Event → Bool
  | .attach _ _ | .detach _ _ => true
  | _ => false

namespace System

theorem akin_perform {s : System} (owned : s.forest.Owned)
    (known : s.tree.root < s.forest.nodes.size) {e : Event}
    (stays : e.rearranges = false) (settled : ∀ name policy, e ≠ .createLeaf name policy) :
    Forest.Akin s.forest (s.perform e).forest := by
  have optional {g : Option Forest} (h : ∀ k, g = some k → Forest.Akin s.forest k) :
      Forest.Akin s.forest (g.getD s.forest) := by
    cases g with
    | none => exact .of_nodes rfl
    | some k => exact h k rfl
  have quiet (alike : Forest.Alike s.forest (s.perform e).forest)
      (h : e.keepsRoster = true) : Forest.Akin s.forest (s.perform e).forest :=
    alike.akin (Forest.kin_of_roster (roster_perform h))
  cases e with
  | submit q attempt user => exact optional fun k => Forest.akin_submit
  | finish q attempt =>
    refine optional fun k hk => ?_
    obtain ⟨⟨k, user⟩, h, rfl⟩ := Option.map_eq_some_iff.1 hk
    exact Forest.akin_finish h
  | createLeaf name policy => exact absurd rfl (settled name policy)
  | reload allocation =>
    apply Forest.Akin.of_nodes
    rw [perform, QueueTree.reload]
    cases allocation.check <;> rfl
  | attach parent child => cases stays
  | detach parent name => cases stays
  | request q attempt request =>
    exact optional fun k hk => (Forest.sheds_request hk).toAlike.akin (Forest.kin_changeLeaf hk)
  | release q container =>
    exact optional fun k hk => (Forest.sheds_release hk).toAlike.akin (Forest.kin_changeLeaf hk)
  | updateDemand q => exact quiet (Forest.keeps_updateDemand _ q).toAlike rfl
  | assign q machine => exact quiet (owned.alike_assign machine q) rfl
  | start capacity preemption limit =>
    exact quiet (Forest.keeps_distribute .steady _ _ capacity).toAlike rfl
  | setCapacity capacity =>
    refine quiet ?_ rfl
    rw [perform]
    split
    · exact (Forest.keeps_distribute .steady _ _ capacity).toAlike
    · exact .refl _
  | update now =>
    refine quiet ?_ rfl
    rw [perform]
    split
    · exact (Forest.keeps_tick _ _ _ now).toAlike
    · exact .refl _
  | cycle machines now =>
    refine quiet ?_ rfl
    rw [perform]
    split
    · next d _ =>
      have updated := Forest.keeps_tick s.forest s.tree.root d.capacity now
      have tree := updated.toAlike.isTree (owned.isTree known)
      exact updated.toAlike.trans (Forest.serves_fillAll d.maxPerMachine machines tree).toAlike
    · exact .refl _

theorem orderly_perform {s : System} (orderly : s.tree.Orderly) {e : Event}
    (stays : e.rearranges = false) : (s.perform e).tree.Orderly := by
  by_cases created : ∃ name policy, e = .createLeaf name policy
  · obtain ⟨name, policy, rfl⟩ := created
    exact orderly.createLeaf name policy
  · have settled (name : String) (policy : Policy) : e ≠ .createLeaf name policy := fun h =>
      created ⟨name, policy, h⟩
    have akin := akin_perform orderly.linked.toOwned orderly.known_root stays settled
    rw [tree_perform settled]
    exact orderly.of_akin akin rfl rfl rfl

end System
end FairShare
