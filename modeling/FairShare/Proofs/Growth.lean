import Mathlib.Data.List.Perm.Basic
import FairShare.Proofs.Passes
import FairShare.Tree.Build

/-!
New queues.  A queue that is added without children and listed by a queue of a tree becomes a leaf of
the tree; nothing else moves.  So whatever is built from a root by adding queues is a tree.
-/

namespace FairShare
namespace Shape

/-- The shape with a new queue as the last child of a queue. -/
def graft (p c : QueueId) : Shape → Shape
  | .node q below => .node q (below.map (graft p c) ++ if q = p then [.node c []] else [])

variable {p c : QueueId}

@[simp] theorem id_graft (s : Shape) : (s.graft p c).id = s.id := by
  cases s with
  | node q below => rw [graft, id_node, id_node]

theorem mem_parts_graft {s u : Shape} (h : u ∈ (s.graft p c).parts) :
    (∃ t ∈ s.parts, u = t.graft p c) ∨ u = .node c [] := by
  induction s with
  | node q below ih =>
    rw [graft, mem_parts_node] at h
    rcases h with rfl | ⟨s, hs, hu⟩
    · exact .inl ⟨.node q below, self_mem_parts _, by rw [graft]⟩
    · rcases List.mem_append.1 hs with hs | hs
      · obtain ⟨t, ht, rfl⟩ := List.mem_map.1 hs
        rcases ih t ht hu with ⟨v, hv, rfl⟩ | rfl
        · exact .inl ⟨v, mem_parts_node.2 (.inr ⟨t, ht, hv⟩), rfl⟩
        · exact .inr rfl
      · split at hs
        · obtain rfl := List.mem_singleton.1 hs
          rcases mem_parts_node.1 hu with rfl | ⟨v, hv, -⟩
          · exact .inr rfl
          · cases hv
        · cases hs

theorem perm_ids_graft (s : Shape) :
    (s.graft p c).ids.Perm (s.ids ++ s.ids.flatMap fun q => if q = p then [c] else []) := by
  induction s with
  | node q below ih =>
    have new : (if q = p then [node c []] else []).flatMap ids = if q = p then [c] else [] := by
      split <;> simp [ids_node]
    have each : (below.flatMap fun s => (s.graft p c).ids).Perm
        (below.flatMap ids ++
          below.flatMap fun s => s.ids.flatMap fun q => if q = p then [c] else []) :=
      (List.Perm.flatMap_left below ih).trans (List.flatMap_append_perm _ _ _).symm
    rw [graft, ids_node, ids_node, List.flatMap_append, List.flatMap_map, new, List.flatMap_cons,
      List.flatMap_assoc, List.cons_append]
    apply List.Perm.cons
    -- The child of the root itself comes last below it, and first among the new ones.
    refine (each.append_right _).trans ?_
    rw [List.append_assoc]
    exact List.perm_append_comm.append_left _

theorem flatMap_ite_eq {l : List QueueId} (distinct : l.Nodup) :
    (l.flatMap fun q => if q = p then [c] else []) = if p ∈ l then [c] else [] := by
  induction l with
  | nil => rfl
  | cons q l ih =>
    obtain ⟨hq, distinct⟩ := List.nodup_cons.1 distinct
    rw [List.flatMap_cons, ih distinct]
    by_cases h : q = p
    · subst h
      simp [hq]
    · simp [h, Ne.symm h]

/-- Among distinct queues, the new queue comes to them if its place is one of them. -/
theorem ids_graft {s : Shape} (distinct : s.ids.Nodup) :
    (s.graft p c).ids.Perm (s.ids ++ if p ∈ s.ids then [c] else []) :=
  flatMap_ite_eq distinct ▸ perm_ids_graft s

end Shape

namespace Forest

/-- Adds a queue and lists it last among the children of another. -/
def grow (f : Forest) (n : Node) (p : QueueId) : Forest := (f.add n).1.attach p f.nodes.size

section

variable {f : Forest} {n : Node} {p q root : QueueId}

theorem size_grow : (f.grow n p).nodes.size = f.nodes.size + 1 := by
  rw [grow, attach, updateComposite, size_update, add]
  simp

theorem lt_size_of_isComposite (h : (f.node p).isComposite = true) : p < f.nodes.size := by
  by_contra hp
  rw [node_of_size_le (Nat.not_lt.1 hp)] at h
  cases h

theorem node_grow_field {α : Type} {field : Node → α}
    (same : ∀ h n, field (Node.mapComposite h n) = field n) (q : QueueId) :
    field ((f.grow n p).node q) = field ((f.add n).1.node q) := by
  rw [grow, attach, updateComposite, node_update]
  split
  · exact same _ _
  · rfl

theorem node_grow_of_lt {α : Type} {field : Node → α}
    (same : ∀ h n, field (Node.mapComposite h n) = field n) (hq : q < f.nodes.size) :
    field ((f.grow n p).node q) = field (f.node q) := by
  rw [node_grow_field same, node_add_of_lt f n hq]

theorem node_grow_size {α : Type} {field : Node → α}
    (same : ∀ h n, field (Node.mapComposite h n) = field n) :
    field ((f.grow n p).node f.nodes.size) = field n := by
  rw [node_grow_field same, node_add_size]

theorem children_grow (hq : q < f.nodes.size) :
    ((f.grow n p).node q).children = (f.node q).children ++
      if q = p ∧ (f.node p).isComposite = true then [f.nodes.size] else [] := by
  rw [grow, attach, updateComposite]
  by_cases h : q = p
  · subst h
    have known : q < (f.add n).1.nodes.size := by
      rw [add, Array.size_push]
      exact Nat.lt_succ_of_lt hq
    rw [node_update_self _ _ known, node_add_of_lt f n hq]
    cases hb : (f.node q).body <;> simp [Node.mapComposite, Node.children, Node.isComposite, hb]
  · rw [node_update_of_ne _ _ h, node_add_of_lt f n hq]
    simp [h]

theorem children_grow_size (h : (f.node p).isComposite = true) :
    ((f.grow n p).node f.nodes.size).children = n.children := by
  have hp := lt_size_of_isComposite h
  rw [grow, attach, updateComposite, node_update_of_ne _ _ hp.ne', node_add_size]

theorem unfolds_graft (tree : f.IsTree root) (hp : (f.node p).isComposite = true)
    (hn : n.children = []) : (f.grow n p).Unfolds ((f.shape root).graft p f.nodes.size) := by
  intro u hu
  rcases Shape.mem_parts_graft hu with ⟨t, ht, rfl⟩ | rfl
  · have known : t.id < f.nodes.size := tree.carries.known _ (Shape.id_mem_ids_of_mem_parts ht)
    rw [Shape.id_graft, children_grow known, tree.unfolds t ht]
    cases t with
    | node q below =>
      rw [Shape.graft, Shape.subtrees_node, Shape.subtrees_node, Shape.id_node, List.map_append,
        List.map_map]
      congr 1
      · exact List.map_congr_left fun s _ => (Shape.id_graft s).symm
      · by_cases h : q = p <;> simp [h, hp]
  · rw [Shape.id_node, children_grow_size hp, hn]
    rfl

theorem unfolds_of_not_isComposite (tree : f.IsTree root) (hp : (f.node p).isComposite = false) :
    (f.grow n p).Unfolds (f.shape root) := by
  intro t ht
  have known : t.id < f.nodes.size := tree.carries.known _ (Shape.id_mem_ids_of_mem_parts ht)
  rw [children_grow known, tree.unfolds t ht]
  simp [hp]

/-- How the queues below a queue change when one is added. -/
structure Gains (f g : Forest) (root : QueueId) : Prop where
  tree : g.IsTree root
  queues : ∀ q ∈ g.queues root, g.queues q = [f.nodes.size] ∨
    q ∈ f.queues root ∧
      ((g.queues q).Perm (f.queues q) ∨ (g.queues q).Perm (f.queues q ++ [f.nodes.size]))

/-- The new queue is unlike the others, so with or without it there is none twice. -/
theorem carries_of_unfolds (tree : f.IsTree root) (plain : n.isScripted = false) {s : Shape}
    (unfolds : (f.grow n p).Unfolds s)
    (ids : s.ids.Perm (f.shape root).ids ∨ s.ids.Perm ((f.shape root).ids ++ [f.nodes.size])) :
    (f.grow n p).Carries s := by
  have old : ∀ q ∈ (f.shape root).ids, q < f.nodes.size := tree.carries.known
  have mem (q : QueueId) (hq : q ∈ s.ids) : q ∈ (f.shape root).ids ∨ q = f.nodes.size := by
    rcases ids with perm | perm
    · exact .inl (perm.mem_iff.1 hq)
    · simpa using perm.mem_iff.1 hq
  have known : ∀ q ∈ s.ids, q < (f.grow n p).nodes.size := by
    intro q hq
    rw [size_grow]
    rcases mem q hq with hq | rfl
    · exact Nat.lt_succ_of_lt (old q hq)
    · exact Nat.lt_succ_self _
  have distinct : s.ids.Nodup := by
    rcases ids with perm | perm
    · exact perm.nodup_iff.2 tree.carries.distinct
    · have new : ∀ q ∈ (f.shape root).ids, ∀ c ∈ [f.nodes.size], q ≠ c := by
        intro q hq c hc
        rw [List.mem_singleton.1 hc]
        exact (old q hq).ne
      exact perm.nodup_iff.2
        (List.nodup_append.2 ⟨tree.carries.distinct, List.nodup_singleton _, new⟩)
  have plain' : ∀ q ∈ s.ids, ((f.grow n p).node q).isScripted = false := by
    intro q hq
    rcases mem q hq with hq | rfl
    · rw [node_grow_of_lt Node.mapComposite_isScripted (old q hq)]
      exact tree.carries.plain q hq
    · rw [node_grow_size Node.mapComposite_isScripted]
      exact plain
  exact ⟨known, distinct, plain', fun t ht => .of_eq (unfolds t ht)⟩

theorem gains_of_unfolds (tree : f.IsTree root) (plain : n.isScripted = false) {s : Shape}
    (hs : s.id = root) (unfolds : (f.grow n p).Unfolds s)
    (parts : ∀ u ∈ s.parts, u = .node f.nodes.size [] ∨
      ∃ t ∈ (f.shape root).parts, u.id = t.id ∧
        (u.ids.Perm t.ids ∨ u.ids.Perm (t.ids ++ [f.nodes.size]))) :
    Gains f (f.grow n p) root := by
  -- The new queue is not the root, which is a queue of the forest.
  have ids : s.ids.Perm (f.shape root).ids ∨ s.ids.Perm ((f.shape root).ids ++ [f.nodes.size]) := by
    rcases parts s s.self_mem_parts with rfl | ⟨t, ht, ht', perm⟩
    · have := tree.known root (f.mem_queues_self root)
      exact absurd hs (by simpa using this.ne')
    · rwa [← tree.shape_of_mem_parts ht, ← ht', hs] at perm
  have carried := carries_of_unfolds tree plain unfolds ids
  have grown : (f.grow n p).IsTree root := hs ▸ carried.isTree unfolds
  have shape : (f.grow n p).shape root = s :=
    hs ▸ unfold_of_unfolds unfolds (length_le_of_known carried.known carried.distinct)
  refine ⟨grown, fun q hq => ?_⟩
  rw [queues_eq_ids, shape] at hq
  obtain ⟨u, hu, rfl⟩ := List.mem_map.1 hq
  rw [queues_eq_ids, grown.shape_of_mem_parts (shape ▸ hu)]
  rcases parts u hu with rfl | ⟨t, ht, ht', perm⟩
  · exact .inl (by simp [Shape.ids_node])
  · rw [ht', queues_eq_ids, queues_eq_ids, tree.shape_of_mem_parts ht]
    exact .inr ⟨Shape.id_mem_ids_of_mem_parts ht, perm⟩

/-- Adding a queue without children keeps a tree a tree. -/
theorem gains_grow (tree : f.IsTree root) (plain : n.isScripted = false) (hn : n.children = [])
    (p : QueueId) : Gains f (f.grow n p) root := by
  cases hp : (f.node p).isComposite with
  | true =>
    refine gains_of_unfolds tree plain ((Shape.id_graft _).trans (f.id_shape root))
      (unfolds_graft tree hp hn) fun u hu => ?_
    rcases Shape.mem_parts_graft hu with ⟨t, ht, rfl⟩ | rfl
    · have perm := Shape.ids_graft (p := p) (c := f.nodes.size)
        (Shape.nodup_ids_of_mem_parts tree.carries.distinct ht)
      refine .inr ⟨t, ht, Shape.id_graft t, ?_⟩
      split at perm
      · exact .inr perm
      · exact .inl (by simpa using perm)
    · exact .inl rfl
  | false =>
    exact gains_of_unfolds tree plain (f.id_shape root) (unfolds_of_not_isComposite tree hp)
      fun u hu => .inr ⟨u, hu, rfl, .inl (.refl _)⟩

theorem maxShare_grow (hq : q < f.nodes.size) : (f.grow n p).maxShare q = f.maxShare q := by
  rw [maxShare, maxShare, node_grow_of_lt Node.mapComposite_name hq]
  rfl

theorem containersIn_grow {l : List QueueId} (known : ∀ q ∈ l, q < f.nodes.size) :
    (f.grow n p).containersIn l = f.containersIn l := by
  apply containersIn_congr
  intro q hq
  rw [Node.running, Node.running, node_grow_of_lt Node.mapComposite_apps (known q hq)]

theorem containersIn_grow_size (empty : n.apps = []) :
    (f.grow n p).containersIn [f.nodes.size] = [] := by
  have apps : ((f.grow n p).node f.nodes.size).apps = [] :=
    (node_grow_size Node.mapComposite_apps).trans empty
  simp [containersIn, Node.running, apps]

/-- A new queue that holds nothing brings no containers. -/
theorem Gains.containers (gains : Gains f (f.grow n p) root) (tree : f.IsTree root)
    (empty : n.apps = []) (hq : q ∈ (f.grow n p).queues root) :
    (f.grow n p).containers q = [] ∨
      q ∈ f.queues root ∧ ((f.grow n p).containers q).Perm (f.containers q) := by
  rcases gains.queues q hq with new | ⟨hq, perm⟩
  · left
    rw [Forest.containers, new, containersIn_grow_size empty]
  · refine .inr ⟨hq, ?_⟩
    have old := containersIn_grow (n := n) (p := p) (tree.of_mem_queues hq).known
    rcases perm with same | more
    · calc
        List.Perm _ ((f.grow n p).containersIn (f.queues q)) := containersIn_perm _ same
        List.Perm _ (f.containers q) := .of_eq old
    · calc
        List.Perm _ ((f.grow n p).containersIn (f.queues q ++ [f.nodes.size])) :=
          containersIn_perm _ more
        List.Perm _ ((f.grow n p).containersIn (f.queues q) ++
            (f.grow n p).containersIn [f.nodes.size]) := .of_eq List.flatMap_append
        List.Perm _ (f.containers q) := .of_eq (by
          rw [old, containersIn_grow_size empty, List.append_nil, Forest.containers])

end

/-- What it does to a forest to create a queue: a queue that holds nothing is added and listed, if it
is added at all. -/
def Creates (f g : Forest) : Prop :=
  Keeps f g ∨ ∃ h n p, Keeps f h ∧ n.isScripted = false ∧ n.children = [] ∧ n.apps = [] ∧
    g = h.grow n p

end Forest

namespace QueueTree

theorem create_cases (f : Forest) (scope : Scope) (n : Node) :
    f.create scope n = .ok (f.add n) ∨ ∃ e, f.create scope n = .error e := by
  rw [Forest.create, Policy.checkScope]
  split
  · exact .inl rfl
  · exact .inr ⟨_, rfl⟩

theorem keeps_addSink (t : QueueTree) (name : String) (parent : QueueId) :
    Forest.Keeps t.forest (t.addSink name parent).1.forest ∧
      (t.addSink name parent).1.root = t.root := ⟨.metrics _ _, rfl⟩

theorem createComposite_creates (t : QueueTree) (name : String) (parent : QueueId)
    (policy : Policy) :
    Forest.Creates t.forest (t.createComposite name parent policy).1.forest ∧
      (t.createComposite name parent policy).1.root = t.root := by
  obtain ⟨kept, root⟩ := t.keeps_addSink name parent
  rw [createComposite]
  generalize t.addSink name parent = added at kept root
  obtain ⟨t₁, sink⟩ := added
  dsimp only
  rcases create_cases t₁.forest .intermediate
    { name, parent := some parent, policy, sink, body := .composite {} } with h | ⟨e, h⟩
  · rw [h]
    exact ⟨.inr ⟨_, _, parent, kept, rfl, rfl, rfl, rfl⟩, root⟩
  · rw [h]
    exact ⟨.inl kept, root⟩

theorem createLeaf_creates (t : QueueTree) (name : String) (policy : Policy) :
    Forest.Creates t.forest (t.createLeaf name policy).1.forest ∧
      (t.createLeaf name policy).1.root = t.root := by
  rw [createLeaf]
  split
  · exact ⟨.inl (.refl _), rfl⟩
  split
  · exact ⟨.inl (.refl _), rfl⟩
  next parent _ =>
  obtain ⟨kept, root⟩ := t.keeps_addSink name parent
  generalize t.addSink name parent = added at kept root
  obtain ⟨t₁, sink⟩ := added
  dsimp only
  rcases create_cases t₁.forest .leaf
    { name, parent := some parent, policy, sink, body := .leaf {} } with h | ⟨e, h⟩
  · rw [h]
    exact ⟨.inr ⟨_, _, parent, kept, rfl, rfl, rfl, rfl⟩, root⟩
  · rw [h]
    exact ⟨.inl kept, root⟩

/-- Creates one planned queue. -/
def createPlanned (a : Allocation) (t : QueueTree) (name : String) (parent : QueueId)
    (policy : Policy) : QueueTree × Except TreeError QueueId :=
  if plannedComposite a name then t.createComposite name parent policy
  else t.createLeaf name policy

/-- Planned queues are created one by one; the names are those so far and those to come. -/
theorem addPlanned_induction {P : List String → List String → QueueTree → Prop}
    {factory : PolicyFactory} {a : Allocation}
    (each : ∀ done name rest t parent policy t' q, t.parentOf? name = some parent →
      createPlanned a t name parent policy = (t', .ok q) → P done (name :: rest) t →
        P (done ++ [name]) rest t')
    (done : List String) {before names asked : List String} {t t' : QueueTree}
    (built : addPlanned factory a before names t = (asked, .ok t')) (holds : P done names t) :
    P (done ++ names) [] t' := by
  induction names generalizing t asked before done with
  | nil =>
    cases built
    rwa [List.append_nil]
  | cons name rest ih =>
    rw [addPlanned] at built
    split at built
    · cases built
    next parent hp =>
    dsimp only at built
    split at built
    · cases built
    next policy _ =>
    generalize created : createPlanned a t name parent policy = step
    rw [createPlanned] at created
    rw [created] at built
    obtain ⟨t₁, outcome⟩ := step
    dsimp only at built
    split at built
    · cases built
    · generalize hl : addPlanned factory a _ rest t₁ = later at built
      obtain ⟨later, outcome⟩ := later
      cases built
      have first := each done name rest t parent policy t₁ _ hp created holds
      have last := ih (done ++ [name]) hl first
      rwa [List.append_assoc, List.singleton_append] at last

/-- What creating a queue preserves, a build preserves. -/
theorem addPlanned_preserves {P : QueueTree → Prop}
    (each : ∀ t t', Forest.Creates t.forest t'.forest → t'.root = t.root → P t → P t')
    {factory : PolicyFactory} {a : Allocation} {before names asked : List String}
    {t t' : QueueTree} (built : addPlanned factory a before names t = (asked, .ok t'))
    (holds : P t) : P t' := by
  apply addPlanned_induction (P := fun _ _ t => P t) _ [] built holds
  intro done name rest t parent policy t' q _ created holds
  -- A composite queue or a leaf: either way one queue is created.
  have creates : Forest.Creates t.forest (createPlanned a t name parent policy).1.forest ∧
      (createPlanned a t name parent policy).1.root = t.root := by
    rw [createPlanned]
    split
    · exact createComposite_creates t name parent policy
    · exact createLeaf_creates t name policy
  rw [created] at creates
  exact each t t' creates.1 creates.2 holds

/-- A tree that is only a root. -/
structure IsBare (t : QueueTree) : Prop where
  nodes : ∃ n, n.isScripted = false ∧ n.children = [] ∧ n.apps = [] ∧ t.forest.nodes = #[n]
  root : t.root = 0

/-- The tree with a root only that is made in a forest. -/
def rootTree (f : Forest) (policy : Policy) : QueueTree :=
  let (metrics, sink) :=
    f.metrics.add { queue := Path.root, parent := none, capacity := logCapacity }
  let (forest, root) := ({ f with metrics } : Forest).add
    { name := Path.root, parent := none, policy, sink, body := .composite {} }
  { forest, root
    composites := (∅ : Table QueueId).insert Path.root root
    leaves := ∅
    sinks := (∅ : Table SinkId).insert Path.root sink }

theorem rootIn_eq (f : Forest) (policy : Policy) :
    rootIn f policy =
      if policy.appliesTo .root = true then .ok (rootTree f policy)
      else .error (.policyNotApplicable policy.name Path.root) := by
  simp only [rootIn, Forest.create, Policy.checkScope]
  cases policy.appliesTo .root <;> rfl

/-- A build that gives a tree passes the check of the allocation, makes a root and goes on from
there. -/
theorem exists_root_of_build {f : Forest} {factory : PolicyFactory} {a : Allocation}
    {asked : List String} {t : QueueTree} (built : buildIn f factory a = (asked, .ok t)) :
    a.check = .ok () ∧ ∃ policy later, policy.appliesTo .root = true ∧
      addPlanned factory a [plannedPolicy a Path.root]
        ((plannedNames a).filter (· ≠ Path.root)) (rootTree f policy) = (later, .ok t) := by
  rw [buildIn] at built
  split at built
  · cases built
  next checked =>
  refine ⟨checked, ?_⟩
  dsimp only at built
  split at built
  · cases built
  next policy _ =>
  rw [rootIn_eq] at built
  cases applies : policy.appliesTo .root with
  | false =>
    rw [applies] at built
    cases built
  | true =>
    rw [if_pos applies] at built
    dsimp only at built
    generalize hl : addPlanned factory a _ _ _ = later at built
    obtain ⟨later, outcome⟩ := later
    cases built
    exact ⟨policy, later, applies, hl⟩

theorem isBare_rootTree (a : Allocation) (policy : Policy) :
    (rootTree { allocation := a } policy).IsBare :=
  ⟨⟨_, rfl, rfl, rfl, rfl⟩, rfl⟩

/-- What holds of a bare root and is preserved by creating queues holds of every tree that is
built. -/
theorem build_induction {P : QueueTree → Prop} (bare : ∀ t, t.IsBare → P t)
    (each : ∀ t t', Forest.Creates t.forest t'.forest → t'.root = t.root → P t → P t')
    {factory : PolicyFactory} {a : Allocation} {asked : List String}
    {t : QueueTree} (built : buildWith factory a = (asked, .ok t)) : P t := by
  obtain ⟨-, policy, later, -, built⟩ := exists_root_of_build built
  exact addPlanned_preserves each built (bare _ (isBare_rootTree a policy))

end QueueTree
end FairShare
