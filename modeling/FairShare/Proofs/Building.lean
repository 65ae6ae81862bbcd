import FairShare.Proofs.Orderly
import FairShare.Proofs.Plan

/-!
Building a tree.  Queues are created in the order of their names, so every one of them finds its
parent and a name that is free; it is only the factory or the policy it gives that can end a build.
-/

namespace FairShare
namespace QueueTree

variable {a : Allocation} {factory : PolicyFactory} {t t' : QueueTree} {done : List String}

/-- A tree with exactly the queues of some planned names, in that order. -/
structure Grown (a : Allocation) (done : List String) (t : QueueTree) : Prop extends Orderly t where
  size : t.forest.nodes.size = done.length
  names : ∀ q < t.forest.nodes.size, done[q]? = some (t.forest.node q).name
  kind : ∀ q < t.forest.nodes.size,
    (t.forest.node q).isComposite = plannedComposite a (t.forest.node q).name
  idle : ∀ q, (t.forest.node q).runnable = 0
  ascending : ∀ p, (t.forest.node p).children.Pairwise (· < ·)

/-- Where a planned queue stands. -/
def plannedScope (a : Allocation) (name : String) : Scope :=
  if name = Path.root then .root
  else if plannedComposite a name then .intermediate
  else .leaf

/-- Why a planned queue is not created, when the factory is asked for a policy after others: it has
none, or one that does not apply where the queue stands. -/
def Refuses (factory : PolicyFactory) (a : Allocation) (before : List String)
    (asked failing : String) (e : TreeError) : Prop :=
  factory before asked = .error e ∨
    ∃ policy, factory before asked = .ok policy ∧
      policy.appliesTo (plannedScope a failing) = false ∧
      e = .policyNotApplicable policy.name failing

namespace Grown

variable (grown : Grown a done t)

include grown

theorem mem_iff {name : String} : name ∈ done ↔ ∃ q, t.find? name = some q := by
  rw [List.mem_iff_getElem?]
  constructor
  · rintro ⟨q, hq⟩
    have known : q < t.forest.nodes.size := by
      rw [grown.size]
      exact (List.getElem?_eq_some_iff.1 hq).1
    have bears := Option.some.inj ((grown.names q known).symm.trans hq)
    exact ⟨q, grown.find?_iff.2 ⟨known, bears⟩⟩
  · rintro ⟨q, hq⟩
    obtain ⟨known, bears⟩ := grown.find?_iff.1 hq
    exact ⟨q, bears ▸ grown.names q known⟩

theorem find?_eq_none {name : String} (new : name ∉ done) : t.find? name = none := by
  rw [Option.eq_none_iff_forall_not_mem]
  intro q hq
  exact new (grown.mem_iff.2 ⟨q, hq⟩)

/-- One more queue of its planned kind. -/
theorem adds {n : Node} {p : QueueId} (adds : Adds t t' n p) (joins : t.forest.Joins n p)
    (held : n.released = false) (new : n.name ∉ done) (hp : t.parentOf? n.name = some p)
    (kind : n.isComposite = plannedComposite a n.name) (idle : n.runnable = 0) :
    Grown a (done ++ [n.name]) t' where
  toOrderly := grown.toOrderly.adds adds joins held (grown.find?_eq_none new) hp
  size := by rw [adds.size, grown.size, List.length_append, List.length_singleton]
  names q hq := by
    rw [adds.field Node.name Node.roster_name]
    split
    · next h => rw [h, grown.size, List.getElem?_concat_length]
    · next h =>
      have old := (Nat.lt_succ_iff_lt_or_eq.1 (hq.trans_eq adds.size)).resolve_right h
      rw [List.getElem?_append_left (old.trans_eq grown.size), grown.names q old]
  kind q hq := by
    rw [adds.field Node.name Node.roster_name, adds.field Node.isComposite Node.roster_isComposite]
    split
    · exact kind
    · next h =>
      exact grown.kind q ((Nat.lt_succ_iff_lt_or_eq.1 (hq.trans_eq adds.size)).resolve_right h)
  idle q := by
    rw [adds.field Node.runnable Node.roster_runnable]
    split
    · exact idle
    · exact grown.idle q
  ascending q := by
    rw [adds.children joins]
    refine List.pairwise_append.2 ⟨grown.ascending q, by split <;> simp, fun c hc d hd => ?_⟩
    split at hd
    · rw [List.mem_singleton.1 hd]
      exact Forest.lt_size_of_parent (grown.linked.own hc)
    · cases hd

/-- A planned queue finds its parent, which comes before it. -/
theorem exists_parent {names : List String} {name parent : String}
    (sorted : (done ++ name :: names).Pairwise (· < ·)) (hp : Path.parent? name = some parent)
    (planned : parent ∈ done ++ name :: names) (kind : plannedComposite a parent = true) :
    ∃ p, t.parentOf? name = some p := by
  have before : parent < name := (Path.isAbove_of_parent? hp).lt
  have isDone : parent ∈ done := by
    rcases List.mem_append.1 planned with h | h
    · exact h
    · rcases List.mem_cons.1 h with rfl | h
      · exact absurd before (String.lt_irrefl _)
      · have after := (List.pairwise_cons.1 (List.pairwise_append.1 sorted).2.1).1 parent h
        exact absurd before (String.lt_asymm after)
  obtain ⟨q, hq⟩ := grown.mem_iff.1 isDone
  obtain ⟨known, bears⟩ := grown.find?_iff.1 hq
  have composite : (t.forest.node q).isComposite = true := by rw [grown.kind q known, bears, kind]
  have lookup := (grown.composites parent q).2 ⟨known, bears, composite⟩
  exact ⟨q, by rw [parentOf?, hp, Option.bind_some, lookup]⟩

end Grown

/-- What a planned queue holds at first. -/
def plannedBody (a : Allocation) (name : String) : Body :=
  if plannedComposite a name then .composite {} else .leaf {}

theorem creation_planned {name : String} {parent : QueueId} (policy : Policy)
    (new : t.find? name = none) (hp : t.parentOf? name = some parent) :
    Creation t parent (t.newQueue name parent policy (plannedBody a name))
      (if plannedComposite a name then t.createComposite name parent policy
        else t.createLeaf name policy) := by
  rw [plannedBody]
  split
  · exact t.createComposite_cases name parent policy
  · generalize created : t.createLeaf name policy = result
    have ended := t.createLeaf_cases name policy
    rw [created] at ended
    cases ended with
    | duplicate known => simp [new] at known
    | orphan _ orphan => simp [hp] at orphan
    | below _ hp' creation =>
      obtain rfl := Option.some.inj (hp.symm.trans hp')
      exact creation

section

variable {name : String} {parent : QueueId} {policy : Policy}

theorem newQueue_scope (other : name ≠ Path.root) :
    (t.newQueue name parent policy (plannedBody a name)).scope = plannedScope a name := by
  rw [plannedBody, plannedScope, if_neg other]
  split <;> rfl

/-- The tree with one more planned queue. -/
theorem Grown.next (grown : Grown a done t) (new : name ∉ done)
    (hp : t.parentOf? name = some parent)
    (adds : Adds t t' (t.newQueue name parent policy (plannedBody a name)) parent) :
    Grown a (done ++ [name]) t' := by
  have body (α : Type) (field : Node → α) (x : α)
      (composite : field (t.newQueue name parent policy (.composite {})) = x)
      (leaf : field (t.newQueue name parent policy (.leaf {})) = x) :
      field (t.newQueue name parent policy (plannedBody a name)) = x := by
    rw [plannedBody]
    split
    · exact composite
    · exact leaf
  have joins := grown.alive.joins (n := t.newQueue name parent policy (plannedBody a name)) hp rfl
    (body _ Node.isScripted _ rfl rfl) (body _ Node.children _ rfl rfl)
  refine grown.adds adds joins rfl new hp ?_ (body _ Node.runnable _ rfl rfl)
  show _ = plannedComposite a name
  cases h : plannedComposite a name <;> simp [newQueue, plannedBody, Node.isComposite, h]

end

/-- What is asked for planned queues after some were created, and how the build goes on. -/
theorem addPlanned_spec (factory : PolicyFactory) {names : List String} (grown : Grown a done t)
    (sorted : (done ++ names).Pairwise (· < ·))
    (planned : ∀ name ∈ names, name ≠ Path.root ∧ ∃ parent ∈ done ++ names,
      Path.parent? name = some parent ∧ plannedComposite a parent = true) :
    match addPlanned factory a (done.map (plannedPolicy a)) names t with
    | (asked, .ok t') => asked = names.map (plannedPolicy a) ∧ Grown a (done ++ names) t'
    | (asked, .error e) => ∃ before failing after, names = before ++ failing :: after ∧
        asked = (before ++ [failing]).map (plannedPolicy a) ∧
        Refuses factory a ((done ++ before).map (plannedPolicy a)) (plannedPolicy a failing)
          failing e := by
  induction names generalizing done t with
  | nil =>
    rw [addPlanned]
    exact ⟨rfl, by simpa using grown⟩
  | cons name rest ih =>
    -- The queues of the names before this one are all there, and its parent is one of them.
    obtain ⟨other, above, among, hparent, kind⟩ := planned name (by simp)
    obtain ⟨parent, hp⟩ := grown.exists_parent sorted hparent among kind
    have new : name ∉ done := fun h =>
      String.lt_irrefl name ((List.pairwise_append.1 sorted).2.2 name h name (by simp))
    rw [addPlanned, hp]
    dsimp only
    cases answer : factory (done.map (plannedPolicy a)) (plannedPolicy a name) with
    | error e => exact ⟨[], name, rest, rfl, rfl, .inl (by simpa using answer)⟩
    | ok policy =>
      dsimp only
      have creation := creation_planned (a := a) policy (grown.find?_eq_none new) hp
      generalize (if plannedComposite a name then t.createComposite name parent policy
        else t.createLeaf name policy) = result at creation ⊢
      cases creation with
      | refused refuses =>
        rw [newQueue_scope other] at refuses
        exact ⟨[], name, rest, rfl, rfl, .inr ⟨policy, by simpa using answer, refuses, rfl⟩⟩
      | @added t₁ applies adds =>
        have so_far : done.map (plannedPolicy a) ++ [plannedPolicy a name] =
            (done ++ [name]).map (plannedPolicy a) := by
          rw [List.map_append, List.map_singleton]
        have assoc (l : List String) : done ++ name :: l = (done ++ [name]) ++ l := by
          rw [List.append_assoc, List.singleton_append]
        have later := ih (grown.next new hp adds) (assoc rest ▸ sorted) fun x hx =>
          assoc rest ▸ planned x (List.mem_cons_of_mem _ hx)
        dsimp only
        rw [so_far]
        generalize addPlanned factory a ((done ++ [name]).map (plannedPolicy a)) rest t₁ =
          outcome at later ⊢
        obtain ⟨asked, outcome | t₂⟩ := outcome
        · obtain ⟨before, failing, after, rfl, rfl, refuses⟩ := later
          exact ⟨name :: before, failing, after, rfl, rfl, assoc before ▸ refuses⟩
        · obtain ⟨rfl, grown⟩ := later
          exact ⟨rfl, assoc rest ▸ grown⟩

section

variable {n : Node} (nodes : t.forest.nodes = #[n])

include nodes

theorem node_of_single (q : QueueId) : t.forest.node q = if q = 0 then n else default := by
  cases q <;> simp [Forest.node, nodes]

theorem field_of_single {α : Type} (field : Node → α) {x : α} (first : field n = x)
    (other : field default = x) (q : QueueId) : field (t.forest.node q) = x := by
  rw [node_of_single nodes]
  split
  · exact first
  · exact other

theorem linked_of_single (parent : n.parent = none) (body : n.body = .composite {}) :
    t.forest.Linked := by
  have orphan := field_of_single nodes Node.parent parent rfl
  have childless := field_of_single nodes Node.children (x := []) (by rw [Node.children, body]) rfl
  exact
    { older := fun h => by rw [orphan] at h; cases h
      composite := fun h => by rw [orphan] at h; cases h
      held := fun h => by rw [orphan] at h; cases h
      plain := field_of_single nodes Node.isScripted (by rw [Node.isScripted, body]) rfl
      once := fun p => by rw [childless]; exact List.nodup_nil
      own := fun h => by rw [childless] at h; cases h
      listed := fun h => by rw [orphan] at h; cases h }

/-- The tree with a root only. -/
theorem grown_root (name : n.name = Path.root) (parent : n.parent = none)
    (body : n.body = .composite {}) (held : n.released = false) (root : t.root = 0)
    (composites : t.composites = (∅ : Table QueueId).insert Path.root 0) (leaves : t.leaves = ∅) :
    Grown a [Path.root] t := by
  have size : t.forest.nodes.size = 1 := by simp [nodes]
  have known {q : QueueId} (h : q < t.forest.nodes.size) : q = 0 := Nat.lt_one_iff.1 (size ▸ h)
  have first : t.forest.node 0 = n := node_of_single nodes 0
  have composite : n.isComposite = true := by rw [Node.isComposite, body]
  refine
    { linked := linked_of_single nodes parent body
      held := field_of_single nodes Node.released held rfl
      composites := fun path q => ?composites
      leaves := fun path q => ?leaves
      distinct := fun hp hq _ => (known hp).trans (known hq).symm
      top := by rw [composites, Table.get?_insert, if_pos rfl, root]
      parent := fun hq => by rw [known hq, first, parent, name]; rfl
      rooted := fun hq _ => (known hq).trans root.symm
      size := size
      names := fun q hq => by rw [known hq, first, name]; rfl
      kind := fun q hq => by rw [known hq, first, composite, name]; simp [plannedComposite]
      idle := field_of_single nodes Node.runnable (by rw [Node.runnable, body]) rfl
      ascending := fun p => ?ascending }
  case composites =>
    rw [composites, Table.get?_insert]
    constructor
    · intro h
      split at h
      · next hpath =>
        obtain rfl := Option.some.inj h
        exact ⟨size ▸ Nat.zero_lt_one, by rw [first, name, hpath], by rw [first, composite]⟩
      · cases h
    · rintro ⟨h, rfl, -⟩
      rw [known h, first, name, if_pos rfl]
  case leaves =>
    rw [leaves, Table.get?_empty]
    refine ⟨fun h => absurd h (by simp), ?_⟩
    rintro ⟨h, -, leaf⟩
    rw [known h, first, composite] at leaf
    cases leaf
  case ascending =>
    rw [field_of_single nodes Node.children (x := []) (by rw [Node.children, body]) rfl]
    exact .nil

end

theorem grown_rootTree (a : Allocation) (policy : Policy) :
    Grown a [Path.root] (rootTree { allocation := a } policy) :=
  grown_root rfl rfl rfl rfl rfl rfl rfl rfl

/-- The tree that the names in an allocation describe. -/
structure Describes (a : Allocation) (t : QueueTree) : Prop where
  names : ∀ name, name ∈ t.names ↔ a.HasQueue name
  composites : ∀ name, (∃ q, t.composites.get? name = some q) ↔ a.HasParent name
  leaves : ∀ name, (∃ q, t.leaves.get? name = some q) ↔ a.HasQueue name ∧ ¬ a.HasParent name
  top : t.composites.get? Path.root = some t.root
  /-- A look-up gives the queue of that name, and of that kind. -/
  bears : ∀ {name q}, t.find? name = some q → (t.forest.node q).name = name ∧
    (a.HasParent name → ∃ c, (t.forest.node q).body = .composite c) ∧
    (¬ a.HasParent name → ∃ l, (t.forest.node q).body = .leaf l)
  /-- Every queue but the root is attached once, to the queue at its parent path. -/
  attached : ∀ {name q}, t.find? name = some q → name ≠ Path.root →
    ∃ above p, Path.parent? name = some above ∧ t.composites.get? above = some p ∧
      (t.forest.node p).children.count q = 1 ∧ ∀ r ≠ p, q ∉ (t.forest.node r).children
  /-- No other queue is attached anywhere. -/
  listed : ∀ {p c}, c ∈ (t.forest.node p).children →
    ∃ name, name ≠ Path.root ∧ t.find? name = some c
  ascending : ∀ p,
    ((t.forest.node p).children.map fun c => (t.forest.node c).name).Pairwise (· < ·)

namespace Grown

variable (grown : Grown a (plannedNames a) t)

include grown

theorem find?_isSome_iff {name : String} : (∃ q, t.find? name = some q) ↔ a.HasQueue name := by
  rw [← grown.mem_iff, mem_plannedNames]

theorem composites_isSome_iff {name : String} :
    (∃ q, t.composites.get? name = some q) ↔ a.HasParent name := by
  rw [← plannedComposite_iff]
  constructor
  · rintro ⟨q, hq⟩
    obtain ⟨known, rfl, composite⟩ := (grown.composites name q).1 hq
    rw [← grown.kind q known, composite]
  · intro h
    obtain ⟨q, hq⟩ := grown.find?_isSome_iff.2 (plannedComposite_iff.1 h).hasQueue
    obtain ⟨known, rfl⟩ := grown.find?_iff.1 hq
    exact ⟨q, (grown.composites _ q).2 ⟨known, rfl, (grown.kind q known).trans h⟩⟩

theorem leaves_isSome_iff {name : String} :
    (∃ q, t.leaves.get? name = some q) ↔ a.HasQueue name ∧ ¬ a.HasParent name := by
  rw [← grown.find?_isSome_iff, ← plannedComposite_iff, Bool.not_eq_true]
  constructor
  · rintro ⟨q, hq⟩
    obtain ⟨known, rfl, leaf⟩ := (grown.leaves name q).1 hq
    exact ⟨⟨q, grown.find?_iff.2 ⟨known, rfl⟩⟩, (grown.kind q known).symm.trans leaf⟩
  · rintro ⟨⟨q, hq⟩, leaf⟩
    obtain ⟨known, rfl⟩ := grown.find?_iff.1 hq
    exact ⟨q, (grown.leaves _ q).2 ⟨known, rfl, (grown.kind q known).trans leaf⟩⟩

theorem names_eq : t.names = plannedNames a := by
  have perm : t.names.Perm (plannedNames a) := by
    refine (List.perm_ext_iff_of_nodup t.ascending_names.nodup
      (ascending_plannedNames a).nodup).2 fun name => ?_
    rw [t.mem_names, grown.find?_isSome_iff, mem_plannedNames]
  exact perm.eq_of_pairwise (fun x y _ _ xy yx => absurd yx (String.lt_asymm xy)) t.ascending_names
    (ascending_plannedNames a)

theorem describes : Describes a t where
  names name := by rw [grown.names_eq, mem_plannedNames]
  composites name := grown.composites_isSome_iff
  leaves name := grown.leaves_isSome_iff
  top := grown.top
  bears {name q} hq := by
    obtain ⟨known, rfl⟩ := grown.find?_iff.1 hq
    have kind := grown.kind q known
    rw [← plannedComposite_iff, ← kind]
    rcases Node.body_of_not_scripted (grown.linked.plain q) with ⟨c, hc⟩ | ⟨l, hl⟩
    · simp [Node.isComposite, hc]
    · simp [Node.isComposite, hl]
  attached hq other := by
    obtain ⟨above, p, habove, hp, -, once, alone⟩ := grown.attached hq other
    exact ⟨above, p, habove, hp, once, alone⟩
  listed hc := grown.find?_of_child hc
  ascending p := by
    refine List.pairwise_map.2 ((grown.ascending p).imp_of_mem fun {c d} hc hd lt => ?_)
    have names (c : QueueId) (hc : c ∈ (t.forest.node p).children) :=
      grown.names c (Forest.lt_size_of_parent (grown.linked.own hc))
    have order := ascending_plannedNames a
    obtain ⟨hi, hc⟩ := List.getElem?_eq_some_iff.1 (names c hc)
    obtain ⟨hj, hd⟩ := List.getElem?_eq_some_iff.1 (names d hd)
    rw [← hc, ← hd]
    exact List.pairwise_iff_getElem.1 order c d hi hj lt

end Grown

/-- What is asked for all planned queues, and how the build ends. -/
theorem buildWith_spec (checked : a.check = .ok ()) (factory : PolicyFactory) :
    match buildWith factory a with
    | (asked, .ok t) => asked = (plannedNames a).map (plannedPolicy a) ∧ Grown a (plannedNames a) t
    | (asked, .error e) => ∃ before failing after, plannedNames a = before ++ failing :: after ∧
        asked = (before ++ [failing]).map (plannedPolicy a) ∧
        Refuses factory a (before.map (plannedPolicy a)) (plannedPolicy a failing) failing e := by
  have order := plannedNames_eq checked
  have sorted := ascending_plannedNames a
  generalize hrest : (plannedNames a).filter (· ≠ Path.root) = rest at order
  rw [order] at sorted
  have planned : ∀ name ∈ rest, name ≠ Path.root ∧ ∃ parent ∈ [Path.root] ++ rest,
      Path.parent? name = some parent ∧ plannedComposite a parent = true := by
    intro name h
    obtain ⟨among, other⟩ := List.mem_filter.1 (hrest ▸ h)
    have other : name ≠ Path.root := by simpa using other
    obtain ⟨parent, hp, has, composite⟩ :=
      exists_planned_parent checked (mem_plannedNames.1 among) other
    refine ⟨other, parent, ?_, hp, plannedComposite_iff.2 composite⟩
    rw [List.singleton_append, ← order]
    exact mem_plannedNames.2 has
  rw [buildWith, buildIn, checked]
  dsimp only
  cases answer : factory [] (plannedPolicy a Path.root) with
  | error e => exact ⟨[], Path.root, rest, order, rfl, .inl answer⟩
  | ok policy =>
    dsimp only
    rw [rootIn_eq]
    cases applies : policy.appliesTo .root with
    | false => exact ⟨[], Path.root, rest, order, rfl, .inr ⟨policy, answer, applies, rfl⟩⟩
    | true =>
      rw [if_pos rfl, hrest]
      have later := addPlanned_spec factory (grown_rootTree a policy) sorted planned
      dsimp only
      rw [List.map_singleton] at later
      generalize addPlanned factory a [plannedPolicy a Path.root] rest _ = outcome at later ⊢
      rw [order]
      obtain ⟨asked, outcome | t₁⟩ := outcome
      · obtain ⟨before, failing, after, rfl, rfl, refuses⟩ := later
        exact ⟨Path.root :: before, failing, after, rfl, rfl, refuses⟩
      · obtain ⟨rfl, grown⟩ := later
        exact ⟨rfl, grown⟩

theorem grown_of_build {asked : List String} (built : buildWith factory a = (asked, .ok t)) :
    Grown a (plannedNames a) t := by
  have spec := buildWith_spec (build_allocation built).1 factory
  rw [built] at spec
  exact spec.2

/-- Building follows the plan: the factory is asked once for every planned name, in ascending order
from the root on, each time for the policy that the allocation names for the queue, until it or the
policy it gives refuses a queue; if none is refused, the tree is the one that the names describe. -/
theorem buildWith_of_check (checked : a.check = .ok ()) (factory : PolicyFactory) :
    ∃ order : List String, order.Pairwise (· < ·) ∧ order.head? = some Path.root ∧
      (∀ name, name ∈ order ↔ a.HasQueue name) ∧
      match buildWith factory a with
      | (asked, .ok t) =>
        List.Forall₂ a.NamesPolicy order asked ∧ t.names = order ∧ Describes a t
      | (asked, .error e) =>
        ∃ before failing after earlier last, order = before ++ failing :: after ∧
          asked = earlier ++ [last] ∧ List.Forall₂ a.NamesPolicy before earlier ∧
          a.NamesPolicy failing last ∧ Refuses factory a earlier last failing e := by
  have first : (plannedNames a).head? = some Path.root := by rw [plannedNames_eq checked]; rfl
  refine ⟨plannedNames a, ascending_plannedNames a, first, fun _ => mem_plannedNames, ?_⟩
  have spec := buildWith_spec checked factory
  generalize buildWith factory a = outcome at spec ⊢
  obtain ⟨asked, e | t⟩ := outcome
  · obtain ⟨before, failing, after, order, rfl, refuses⟩ := spec
    exact ⟨before, failing, after, _, _, order, by rw [List.map_append, List.map_singleton],
      forall₂_namesPolicy.2 rfl, namesPolicy_iff.2 rfl, refuses⟩
  · obtain ⟨rfl, grown⟩ := spec
    exact ⟨forall₂_namesPolicy.2 rfl, grown.names_eq, grown.describes⟩

/-- Names with a character that precedes the dot, and one that is configured as a parent. -/
def unevenNames (default : Option String) : Allocation :=
  { defaultPolicy := default
    queues := Table.ofList
      [("root.a.x", {}), ("root.a-b", { policy := some "fifo" }), ("root.c", { parent := true })] }

/-- The queue whose name goes on with such a character comes between another queue and its child.
It is the only one with a policy of its own; for the others the default policy is asked, or the fair
one where there is no default. -/
theorem buildWith_of_check_uneven :
    (∃ asked t, build resolveNamed (unevenNames (some "rank")) = (asked, .ok t) ∧
        asked = ["rank", "rank", "fifo", "rank", "rank"] ∧
        t.names = ["root", "root.a", "root.a-b", "root.a.x", "root.c"] ∧
        Describes (unevenNames (some "rank")) t) ∧
      ∃ asked t, build resolveNamed (unevenNames none) = (asked, .ok t) ∧
        asked = ["fair", "fair", "fifo", "fair", "fair"] ∧
        t.names = ["root", "root.a", "root.a-b", "root.a.x", "root.c"] ∧
        Describes (unevenNames none) t := by
  have checked : ∀ default ∈ [some "rank", none], (unevenNames default).check = .ok () := by
    decide +kernel
  have facts : ∀ default ∈ [some "rank", none],
      (build resolveNamed (unevenNames default)).2.toOption.isSome = true ∧
        ∀ t ∈ (build resolveNamed (unevenNames default)).2.toOption,
          t.names = ["root", "root.a", "root.a-b", "root.a.x", "root.c"] := by decide +kernel
  have outcome (default : Option String) (among : default ∈ [some "rank", none]) :
      ∃ asked t, build resolveNamed (unevenNames default) = (asked, .ok t) ∧
        List.Forall₂ (unevenNames default).NamesPolicy
          ["root", "root.a", "root.a-b", "root.a.x", "root.c"] asked ∧
        t.names = ["root", "root.a", "root.a-b", "root.a.x", "root.c"] ∧
        Describes (unevenNames default) t := by
    obtain ⟨succeeds, names⟩ := facts default among
    obtain ⟨asked, t, built, names⟩ := exists_built succeeds names
    obtain ⟨order, -, -, -, spec⟩ :=
      buildWith_of_check (checked default among) fun _ => resolveNamed
    rw [show buildWith (fun _ => resolveNamed) (unevenNames default) = (asked, .ok t) from built]
      at spec
    obtain ⟨policies, rfl, describes⟩ := spec
    exact ⟨asked, t, built, names ▸ policies, names, describes⟩
  constructor
  · obtain ⟨asked, t, built, policies, names, describes⟩ := outcome (some "rank") (by simp)
    exact ⟨asked, t, built, (forall₂_namesPolicy.1 policies).symm.trans (by decide +kernel), names,
      describes⟩
  · obtain ⟨asked, t, built, policies, names, describes⟩ := outcome none (by simp)
    exact ⟨asked, t, built, (forall₂_namesPolicy.1 policies).symm.trans (by decide +kernel), names,
      describes⟩

end QueueTree
end FairShare
