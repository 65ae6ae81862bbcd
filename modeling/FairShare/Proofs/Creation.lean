import FairShare.Proofs.Built
import FairShare.Proofs.Joining
import FairShare.Proofs.Plan

/-!
Creating queues by name.  A queue that is created gets the next number, is listed last under the
composite queue at its parent path and can be looked up by its name; nothing else changes.  A leaf
that is refused leaves the tree as it was, unless it was its policy that was refused: by then the
sink of the leaf is there, under a name that has no queue.
-/

namespace FairShare
namespace QueueTree

/-- The queue that is created under a name. -/
def newQueue (t : QueueTree) (name : String) (parent : QueueId) (policy : Policy) (body : Body) :
    Node :=
  { name, parent := some parent, policy, sink := t.forest.metrics.size, body }

/-- The tree with the sink of a queue that is about to be created. -/
def withSink (t : QueueTree) (name : String) (parent : QueueId) : QueueTree :=
  (t.addSink name parent).1

/-- What it does to a tree to create a queue below another. -/
structure Adds (t t' : QueueTree) (n : Node) (p : QueueId) : Prop where
  forest : ∃ metrics, t'.forest = ({ t.forest with metrics } : Forest).grow n p
  metrics : t'.forest.metrics = (t.withSink n.name p).forest.metrics
  sinks : t'.sinks = (t.withSink n.name p).sinks
  root : t'.root = t.root
  composites : t'.composites =
    if n.isComposite = true then t.composites.insert n.name t.forest.nodes.size else t.composites
  leaves : t'.leaves =
    if n.isComposite = false then t.leaves.insert n.name t.forest.nodes.size else t.leaves

section

variable {t t' : QueueTree} {n : Node} {p : QueueId}

theorem Adds.size (adds : Adds t t' n p) :
    t'.forest.nodes.size = t.forest.nodes.size + 1 := by
  obtain ⟨metrics, forest⟩ := adds.forest
  rw [forest, Forest.size_grow]

/-- What the roster shows of a queue once another one was created. -/
theorem Adds.field (adds : Adds t t' n p) {α : Type} (field : Node → α)
    (unseen : ∀ n, field n.roster = field n) (q : QueueId) :
    field (t'.forest.node q) =
      if q = t.forest.nodes.size then field n else field (t.forest.node q) := by
  obtain ⟨metrics, forest⟩ := adds.forest
  rw [forest, Forest.field_grow field unseen]
  rfl

theorem Adds.nodes (adds : Adds t t' n p) : t'.forest.nodes = (t.forest.grow n p).nodes := by
  obtain ⟨metrics, forest⟩ := adds.forest
  rw [forest]
  rfl

theorem Adds.lineage (adds : Adds t t' n p) (joins : t.forest.Joins n p)
    (lineage : t.forest.Lineage) : t'.forest.Lineage :=
  (Forest.Akin.of_nodes adds.nodes).lineage (joins.lineage lineage)

/-- The new queue is the only one that may be below a queue and was not. -/
theorem Adds.createdBelow (adds : Adds t t' n p) (joins : t.forest.Joins n p)
    (lineage : t.forest.Lineage) (r : QueueId) : t'.forest.createdBelow r =
      t.forest.createdBelow r ++
        [t.forest.nodes.size].filter fun q => r ∈ t'.forest.ancestors q := by
  have same := Forest.Akin.of_nodes adds.nodes
  simp only [same.createdBelow, same.ancestors]
  exact joins.createdBelow lineage r

theorem Adds.children (adds : Adds t t' n p) (joins : t.forest.Joins n p) (q : QueueId) :
    (t'.forest.node q).children =
      (t.forest.node q).children ++ if q = p then [t.forest.nodes.size] else [] := by
  obtain ⟨metrics, forest⟩ := adds.forest
  rw [forest]
  exact joins.children q

end

/-- How it ends to create a queue below another: its policy has to apply. -/
inductive Creation (t : QueueTree) (p : QueueId) (n : Node) :
    QueueTree × Except TreeError QueueId → Prop
  | refused (refuses : n.policy.appliesTo n.scope = false) :
    Creation t p n (t.withSink n.name p, .error (.policyNotApplicable n.policy.name n.name))
  | added {t' : QueueTree} (applies : n.policy.appliesTo n.scope = true) (adds : Adds t t' n p) :
    Creation t p n (t', .ok t.forest.nodes.size)

/-- How the creation of a leaf ends. -/
inductive LeafCreation (t : QueueTree) (name : String) (policy : Policy) :
    QueueTree × Except TreeError QueueId → Prop
  | duplicate (known : (t.find? name).isSome) :
    LeafCreation t name policy (t, .error (.duplicateQueue name))
  | orphan (new : t.find? name = none) (orphan : t.parentOf? name = none) :
    LeafCreation t name policy (t, .error (.unknownParent name))
  | below {parent : QueueId} {result : QueueTree × Except TreeError QueueId}
      (new : t.find? name = none) (hp : t.parentOf? name = some parent)
      (creation : Creation t parent (t.newQueue name parent policy (.leaf {})) result) :
    LeafCreation t name policy result

theorem isSome_find? (t : QueueTree) (name : String) :
    (t.find? name).isSome = (t.composites.contains name || t.leaves.contains name) := by
  rw [find?, Table.contains, Table.contains]
  cases t.composites.get? name <;> rfl

/-- Both kinds of queues are created in the same way: what differs is where they are looked up. -/
theorem creation_of_create {t : QueueTree} {p : QueueId} {n : Node} {scope : Scope}
    (meant : n.scope = scope) (grown : Forest → QueueId → QueueTree)
    (adds : Adds t (grown ((t.withSink n.name p).forest.add n).1 t.forest.nodes.size) n p) :
    Creation t p n
      (match (t.withSink n.name p).forest.create scope n with
      | .error e => (t.withSink n.name p, .error e)
      | .ok (forest, q) => (grown forest q, .ok q)) := by
  cases applies : n.policy.appliesTo scope with
  | false =>
    rw [Forest.create, Policy.checkScope, if_neg (by simp [applies])]
    exact .refused (meant ▸ applies)
  | true =>
    rw [Forest.create, Policy.checkScope, if_pos applies]
    exact .added (meant ▸ applies) adds

theorem mem_names (t : QueueTree) {name : String} :
    name ∈ t.names ↔ ∃ q, t.find? name = some q := by
  rw [names, Table.mem_names_tabulate, List.mem_append, Table.mem_names, Table.mem_names, find?]
  constructor
  · rintro (⟨q, hq⟩ | ⟨q, hq⟩)
    · exact ⟨q, by rw [hq]; rfl⟩
    · cases hc : t.composites.get? name with
      | none => exact ⟨q, hq⟩
      | some p => exact ⟨p, rfl⟩
  · rintro ⟨q, hq⟩
    cases hc : t.composites.get? name with
    | none =>
      rw [hc] at hq
      exact .inr ⟨q, hq⟩
    | some p => exact .inl ⟨p, rfl⟩

theorem ascending_names (t : QueueTree) : t.names.Pairwise (· < ·) := Table.ascending_names _

theorem createComposite_cases (t : QueueTree) (name : String) (parent : QueueId)
    (policy : Policy) :
    Creation t parent (t.newQueue name parent policy (.composite {}))
      (t.createComposite name parent policy) :=
  creation_of_create rfl (fun forest q =>
    { t.withSink name parent with
      forest := forest.attach parent q, composites := t.composites.insert name q })
    ⟨⟨_, rfl⟩, rfl, rfl, rfl, rfl, rfl⟩

theorem createLeaf_cases (t : QueueTree) (name : String) (policy : Policy) :
    LeafCreation t name policy (t.createLeaf name policy) := by
  rw [createLeaf, ← isSome_find?]
  split
  case isTrue known => exact .duplicate known
  case isFalse unknown =>
    have new : t.find? name = none := by simpa using unknown
    split
    case h_1 orphan => exact .orphan new orphan
    case h_2 parent hp =>
      refine .below new hp ?_
      exact creation_of_create rfl (fun forest q =>
        { t.withSink name parent with
          forest := forest.attach parent q, leaves := t.leaves.insert name q })
        ⟨⟨_, rfl⟩, rfl, rfl, rfl, rfl, rfl⟩

/-- What holds of a tree holds once a leaf was to be created in it, if it goes on to hold with the
sink of that leaf and with the leaf. -/
theorem createLeaf_preserves {P : QueueTree → Prop} (t : QueueTree) (name : String)
    (policy : Policy) (start : P t)
    (refused : ∀ parent, t.find? name = none → P (t.withSink name parent))
    (added : ∀ t' parent, t.find? name = none → t.parentOf? name = some parent →
      Adds t t' (t.newQueue name parent policy (.leaf {})) parent → P t') :
    P (t.createLeaf name policy).1 := by
  generalize created : t.createLeaf name policy = result
  have ended := t.createLeaf_cases name policy
  rw [created] at ended
  cases ended with
  | duplicate known => exact start
  | orphan new orphan => exact start
  | below new hp creation =>
    cases creation with
    | refused refuses => exact refused _ new
    | added applies adds => exact added _ _ new hp adds

/-- What was in a tree is as it was; at most there is a new sink under one name. -/
structure GainsSink (t t' : QueueTree) (name : String) : Prop where
  nodes : t'.forest.nodes = t.forest.nodes
  allocation : t'.forest.allocation = t.forest.allocation
  root : t'.root = t.root
  composites : t'.composites = t.composites
  leaves : t'.leaves = t.leaves
  sinks : ∀ path, path ≠ name → t'.sinks.get? path = t.sinks.get? path
  metrics : ∀ id < t.forest.metrics.size, t'.forest.metrics.sink id = t.forest.metrics.sink id

theorem GainsSink.refl (t : QueueTree) (name : String) : GainsSink t t name :=
  ⟨rfl, rfl, rfl, rfl, rfl, fun _ _ => rfl, fun _ _ => rfl⟩

theorem gainsSink_withSink (t : QueueTree) (name : String) (parent : QueueId) :
    GainsSink t (t.withSink name parent) name where
  nodes := rfl
  allocation := rfl
  root := rfl
  composites := rfl
  leaves := rfl
  sinks path other := by
    show (t.sinks.insert name _).get? path = _
    rw [Table.get?_insert, if_neg other]
  metrics id known := by
    show (t.forest.metrics.push _).getD id default = _
    simp [Metrics.sink, Array.getD_eq_getD_getElem?, Array.getElem?_push, known.ne]

theorem withSink_ne (t : QueueTree) (name : String) (parent : QueueId) :
    t.withSink name parent ≠ t := by
  intro same
  have size : (t.forest.metrics.push _).size = t.forest.metrics.size :=
    congrArg (fun s : QueueTree => s.forest.metrics.size) same
  rw [Array.size_push] at size
  omega

theorem GainsSink.names {t t' : QueueTree} {name : String} (gains : GainsSink t t' name) :
    t'.names = t.names := by
  rw [QueueTree.names, QueueTree.names, gains.composites, gains.leaves]

theorem GainsSink.find? {t t' : QueueTree} {name : String} (gains : GainsSink t t' name)
    (path : String) : t'.find? path = t.find? path := by
  rw [QueueTree.find?, QueueTree.find?, gains.composites, gains.leaves]

/-- A leaf that is not created leaves the queues, their child lists and the look-ups as they were.
Everything is as it was if and only if it was not the policy that was refused; that leaves a new
sink under the name of the leaf. -/
theorem createLeaf_unchanged_iff {t t' : QueueTree} {name : String} {policy : Policy}
    {e : TreeError} (failed : t.createLeaf name policy = (t', .error e)) :
    GainsSink t t' name ∧ t'.names = t.names ∧ (∀ path, t'.find? path = t.find? path) ∧
      (t' = t ↔ e ≠ .policyNotApplicable policy.name name) ∧
      (e = .duplicateQueue name ∧ (t.find? name).isSome ∨
        e = .unknownParent name ∧ t.find? name = none ∧ t.parentOf? name = none ∨
        e = .policyNotApplicable policy.name name ∧ t.find? name = none ∧
          policy.appliesTo .leaf = false ∧
          ∃ parent, t.parentOf? name = some parent ∧ t' = t.withSink name parent) := by
  have ended := t.createLeaf_cases name policy
  rw [failed] at ended
  have gains : GainsSink t t' name := by
    cases ended with
    | duplicate known => exact .refl t name
    | orphan new orphan => exact .refl t name
    | below new hp creation =>
      cases creation with
      | refused refuses => exact t.gainsSink_withSink name _
  refine ⟨gains, gains.names, gains.find?, ?_⟩
  cases ended with
  | duplicate known => exact ⟨by simp, .inl ⟨rfl, known⟩⟩
  | orphan new orphan => exact ⟨by simp, .inr (.inl ⟨rfl, new, orphan⟩)⟩
  | below new hp creation =>
    cases creation with
    | refused refuses =>
      constructor
      · simpa [newQueue] using t.withSink_ne name _
      · exact .inr (.inr ⟨rfl, new, refuses, _, hp, rfl⟩)

/-- A root with one leaf. -/
def oneLeaf : Allocation := { queues := Table.ofList [("root.a", {})] }

/-- A leaf whose policy is refused next to it. -/
theorem createLeaf_unchanged_refused :
    ∃ asked t, build resolveNamed oneLeaf = (asked, .ok t) ∧
      ∃ t', t.createLeaf "root.b" .rootOnly =
          (t', .error (.policyNotApplicable "root-only" "root.b")) ∧
        GainsSink t t' "root.b" ∧ t' ≠ t := by
  have refused : ∀ t ∈ (build resolveNamed oneLeaf).2.toOption,
      (t.createLeaf "root.b" .rootOnly).2 = .error (.policyNotApplicable "root-only" "root.b") := by
    decide +kernel
  refine exists_built (by decide +kernel) fun t ht => ?_
  have failed : t.createLeaf "root.b" .rootOnly =
      ((t.createLeaf "root.b" .rootOnly).1, .error (.policyNotApplicable "root-only" "root.b")) :=
    Prod.ext rfl (refused t ht)
  obtain ⟨gains, -, -, unchanged, -⟩ := createLeaf_unchanged_iff failed
  exact ⟨_, failed, gains, fun same => unchanged.1 same rfl⟩

/-- There is a sink under the name that got no queue, where there was none. -/
theorem createLeaf_leaves_sink :
    ∃ asked t, build resolveNamed oneLeaf = (asked, .ok t) ∧
      (t.createLeaf "root.b" .rootOnly).2 =
        .error (.policyNotApplicable "root-only" "root.b") ∧
      t.sinks.get? "root.b" = none ∧
      (t.createLeaf "root.b" .rootOnly).1.sinks.get? "root.b" = some 2 ∧
      (t.createLeaf "root.b" .rootOnly).1.find? "root.b" = none :=
  exists_built (by decide +kernel) (by decide +kernel)

end QueueTree
end FairShare
