import Mathlib.Algebra.GroupWithZero.Nat
import FairShare.Proofs.Building

/-!
The counters of composite queues.  Every composite queue counts the applications in the leaves that
were created below it, wherever these are listed: an application is counted in and out along the
chain of parents of its leaf, and nothing else changes a counter or a chain.
-/

namespace FairShare

/-- Lists taken together over distinct places, of which one changes. -/
theorem length_flatMap_of_ne {α : Type} {l : List QueueId} (distinct : l.Nodup)
    {a b : QueueId → List α} {q : QueueId} (others : ∀ p, p ≠ q → b p = a p) :
    (l.flatMap b).length + (if q ∈ l then (a q).length else 0) =
      (l.flatMap a).length + if q ∈ l then (b q).length else 0 := by
  induction l with
  | nil => simp
  | cons p rest ih =>
    obtain ⟨hp, distinct⟩ := List.nodup_cons.1 distinct
    have rest := ih distinct
    rw [List.flatMap_cons, List.flatMap_cons, List.length_append, List.length_append]
    by_cases h : q = p
    · subst h
      simp only [hp, if_false] at rest
      simp only [List.mem_cons_self, if_true]
      omega
    · rw [others p (Ne.symm h)]
      simp only [List.mem_cons, h, false_or]
      omega

theorem Node.apps_of_isComposite {n : Node} (h : n.isComposite = true) : n.apps = [] := by
  obtain ⟨c, hc⟩ := body_of_isComposite h
  exact apps_of_composite hc

namespace Forest

/-- The applications in the leaves that were created below a queue. -/
def heldBelow (f : Forest) (p : QueueId) : List App :=
  (f.createdBelow p).flatMap fun q => (f.node q).apps

/-- Every composite queue counts the applications in the leaves that were created below it. -/
def Counted (f : Forest) : Prop :=
  ∀ p, (f.node p).isComposite = true → (f.node p).runnable = (f.heldBelow p).length

/-- Whether counting an application out at queues in turn comes to one that counts none by then. -/
def undercounts (f : Forest) : List QueueId → Bool
  | [] => false
  | p :: rest => (f.node p).runnable = 0 || (f.countOut p).undercounts rest

variable {f g : Forest} {p q : QueueId}

theorem length_heldBelow (f : Forest) (p : QueueId) : (f.heldBelow p).length =
    ((f.createdBelow p).map fun q => (f.node q).apps.length).sum := List.length_flatMap

theorem apps_sublist_heldBelow (h : q ∈ f.createdBelow p) :
    (f.node q).apps.Sublist (f.heldBelow p) := by
  rw [heldBelow, List.flatMap_def]
  exact List.sublist_flatten_of_mem (List.mem_map_of_mem h)

theorem counted_of_roster (counted : f.Counted) (h : g.roster = f.roster) : g.Counted := by
  intro p hp
  have runnable := field_of_roster Node.runnable Node.roster_runnable h p
  have composite := field_of_roster Node.isComposite Node.roster_isComposite h p
  have apps := field_of_roster (fun n => n.apps.length) Node.length_apps_roster h
  rw [runnable, counted p (composite ▸ hp), length_heldBelow, length_heldBelow,
    (kin_of_roster h).createdBelow]
  simp only [apps]

theorem node_updateComposite (f : Forest) (p q : QueueId) (k : Composite → Composite) :
    (f.updateComposite q k).node p =
      if p = q then (f.node p).mapComposite k else f.node p := by
  rw [updateComposite, node_update]
  by_cases h : p = q
  · by_cases known : q < f.nodes.size
    · simp [h, known]
    · have unknown : f.node q = default := node_of_size_le (Nat.not_lt.1 known)
      simp only [h, known, and_false, if_false, if_true, unknown]
      rfl
  · simp [h]

theorem node_foldl_updateComposite {l : List QueueId} (distinct : l.Nodup)
    (k : Composite → Composite) (f : Forest) (p : QueueId) :
    (l.foldl (fun f q => f.updateComposite q k) f).node p =
      if p ∈ l then (f.node p).mapComposite k else f.node p := by
  induction l generalizing f with
  | nil => rfl
  | cons q rest ih =>
    obtain ⟨hq, distinct⟩ := List.nodup_cons.1 distinct
    rw [List.foldl_cons, ih distinct, node_updateComposite]
    by_cases h : p = q
    · subst h
      simp [hq]
    · simp [h]

/-- Counts anew at the queues above a queue. -/
def recount (r : Nat → Nat) (f : Forest) (q : QueueId) : Forest :=
  f.countAbove (fun f p => f.updateComposite p fun c => { c with runnable := r c.runnable }) q

/-- One leaf holds other applications, and the queues above it count otherwise. -/
structure Recounts (f g : Forest) (q : QueueId) (apps : List App) (r : Nat → Nat) : Prop
    extends Kin f g where
  apps : ∀ p, (g.node p).apps = if p = q then apps else (f.node p).apps
  runnable : ∀ p, (f.node p).isComposite = true → (g.node p).runnable =
    if p ∈ f.ancestors q then r (f.node p).runnable else (f.node p).runnable

theorem recounts_recount (lineage : f.Lineage) (known : q < f.nodes.size) {l : Leaf}
    (hb : (f.node q).body = .leaf l) (m : Leaf) (r : Nat → Nat) :
    Recounts f ((f.update q (Node.mapLeaf fun _ => m)).recount r q) q m.apps r := by
  have kin := kin_mapLeaf f q fun _ => m
  have node (p : QueueId) : ((f.update q (Node.mapLeaf fun _ => m)).recount r q).node p =
      if p ∈ f.ancestors q then
        ((f.update q (Node.mapLeaf fun _ => m)).node p).mapComposite
          fun c => { c with runnable := r c.runnable }
      else (f.update q (Node.mapLeaf fun _ => m)).node p := by
    rw [recount, countAbove, kin.ancestors]
    exact node_foldl_updateComposite (lineage.nodup_ancestors q) _ _ p
  refine ⟨kin.trans (kin_countAbove (fun f p => kin_updateComposite f p _) _ q), ?_, ?_⟩
  · intro p
    have same : (((f.update q (Node.mapLeaf fun _ => m)).recount r q).node p).apps =
        ((f.update q (Node.mapLeaf fun _ => m)).node p).apps := by
      rw [node]
      split
      · exact Node.mapComposite_apps _ _
      · rfl
    rw [same, node_update]
    by_cases h : p = q
    · subst h
      simp [known, Node.mapLeaf, hb, Node.apps]
    · simp [h]
  · intro p hp
    -- A composite queue is not the leaf.
    have other : p ≠ q := by
      rintro rfl
      simp [Node.isComposite, hb] at hp
    rw [node, node_update_of_ne f _ other]
    split
    · cases hbody : (f.node p).body <;>
        simp [Node.mapComposite, Node.runnable, Node.isComposite, hbody] at hp ⊢
    · rfl

theorem Recounts.counted {apps : List App} {r : Nat → Nat} (recounts : Recounts f g q apps r)
    (lineage : f.Lineage) (counted : f.Counted)
    (change : ∀ n, (f.node q).apps.length ≤ n → r n + (f.node q).apps.length = n + apps.length) :
    g.Counted := by
  intro p hp
  have hp := recounts.composite p ▸ hp
  have total := length_flatMap_of_ne (f.nodup_createdBelow p) (q := q)
    (a := fun q => (f.node q).apps) (b := fun q => (g.node q).apps)
    fun p other => (recounts.apps p).trans (if_neg other)
  have among : q ∈ f.createdBelow p ↔ p ∈ f.ancestors q := by
    rw [lineage.mem_createdBelow, lineage.mem_ancestors]
  have before := counted p hp
  rw [recounts.apps q, if_pos rfl] at total
  rw [recounts.runnable p hp]
  show _ = ((g.createdBelow p).flatMap _).length
  rw [recounts.createdBelow]
  by_cases h : p ∈ f.ancestors q
  · -- What the leaf holds is part of what the queue counts, so counting out never stops at none.
    have within : (f.node q).apps.length ≤ (f.node p).runnable :=
      before ▸ (apps_sublist_heldBelow (among.2 h)).length_le
    have changed := change _ within
    rw [if_pos (among.2 h), if_pos (among.2 h)] at total
    rw [if_pos h]
    rw [before, heldBelow] at changed ⊢
    omega
  · rw [if_neg (among.not.2 h), if_neg (among.not.2 h)] at total
    rw [if_neg h, before, heldBelow]
    omega

theorem update_of_unknown (k : Node → Node) (unknown : f.nodes.size ≤ q) : f.update q k = f := by
  refine eq_of_node (g := f.update q k) (f := f) rfl rfl (size_update f q k) fun p => ?_
  rw [node_update, if_neg fun h => absurd h.2 (Nat.not_lt.2 unknown)]

theorem ancestors_of_unknown (unknown : f.nodes.size ≤ q) : f.ancestors q = [] := by
  have orphan : f.parent? q = none := by rw [parent?, node_of_size_le unknown]; rfl
  rw [ancestors]
  cases f.nodes.size with
  | zero => rfl
  | succ n => rw [ancestorsUpTo, orphan]

theorem counted_submit (lineage : f.Lineage) (counted : f.Counted) {attempt : AttemptId}
    {user : String} (h : f.submit? q attempt user = some g) : g.Counted := by
  obtain ⟨changed, taken, rfl⟩ := Option.map_eq_some_iff.1 h
  obtain ⟨l, m, hb, hm, rfl⟩ := changeLeaf?_eq_some.1 taken
  have longer : m.apps.length = l.apps.length + 1 := by
    rw [(Leaf.submit?_eq_some hm).2, List.length_append, List.length_singleton]
  rcases Nat.lt_or_ge q f.nodes.size with known | unknown
  · refine (recounts_recount lineage known hb m (· + 1)).counted lineage counted fun n _ => ?_
    rw [Node.apps_of_leaf hb, longer]
    omega
  · -- There is no such queue, and none above it.
    rw [update_of_unknown _ unknown, countAbove, ancestors_of_unknown unknown]
    exact counted

theorem length_finish {l m : Leaf} {attempt : AttemptId} {user : String}
    (h : l.finish? attempt = some (m, user)) : l.apps.length = m.apps.length + 1 := by
  obtain ⟨a, ha, e⟩ := Option.map_eq_some_iff.1 h
  cases e
  have found := List.find?_some ha
  rw [List.length_eraseP_of_mem (List.mem_of_find?_eq_some ha) found]
  have := List.length_pos_of_mem (List.mem_of_find?_eq_some ha)
  omega

theorem counted_finish (lineage : f.Lineage) (counted : f.Counted) {attempt : AttemptId}
    {user : String} (h : f.finish? q attempt = some (g, user)) : g.Counted := by
  obtain ⟨l, m, hb, hm, rfl⟩ := finish?_eq_some.1 h
  have shorter := length_finish hm
  have held : (f.node q).apps ≠ [] := by
    rw [Node.apps_of_leaf hb]
    exact List.ne_nil_of_length_pos (by omega)
  refine (recounts_recount lineage (lt_size_of_apps held) hb m (· - 1)).counted lineage counted fun n hn => ?_
  rw [Node.apps_of_leaf hb, shorter] at hn ⊢
  omega

theorem undercounts_eq_false {l : List QueueId} (distinct : l.Nodup)
    (counts : ∀ p ∈ l, 0 < (f.node p).runnable) : f.undercounts l = false := by
  induction l generalizing f with
  | nil => rfl
  | cons p rest ih =>
    obtain ⟨hp, distinct⟩ := List.nodup_cons.1 distinct
    have first := counts p (by simp)
    -- Counting out at one queue leaves the counters of the others.
    have later : (f.countOut p).undercounts rest = false := by
      refine ih distinct fun r hr => ?_
      have other : r ≠ p := fun e => hp (e ▸ hr)
      rw [countOut, node_updateComposite, if_neg other]
      exact counts r (by simp [hr])
    rw [undercounts, later, Bool.or_false, decide_eq_false first.ne']

/-- An application that ends is still counted at every queue above its leaf when it is counted out.
-/
theorem not_undercounts (lineage : f.Lineage) (counted : f.Counted) {l m : Leaf}
    {attempt : AttemptId} {user : String} (hb : (f.node q).body = .leaf l)
    (hm : l.finish? attempt = some (m, user)) :
    (f.update q (Node.mapLeaf fun _ => m)).undercounts
      ((f.update q (Node.mapLeaf fun _ => m)).ancestors q) = false := by
  rw [(kin_mapLeaf f q fun _ => m).ancestors]
  refine undercounts_eq_false (lineage.nodup_ancestors q) fun p hp => ?_
  have above := lineage.mem_ancestors.1 hp
  have other : p ≠ q := (lineage.lt_of_above above).ne
  have held := (apps_sublist_heldBelow (lineage.mem_createdBelow.2 above)).length_le
  rw [Node.apps_of_leaf hb, length_finish hm] at held
  rw [node_update_of_ne f _ other, counted p (lineage.isComposite_of_above above)]
  omega

/-- Where nothing is counted and no leaf holds an application, the counts are right. -/
theorem counted_of_idle (idle : ∀ q, (f.node q).runnable = 0) : f.Counted := by
  intro p _
  have none (q : QueueId) : (f.node q).apps = [] := by
    have nothing := idle q
    cases hb : (f.node q).body with
    | composite c => exact Node.apps_of_composite hb
    | leaf l => simpa [Node.runnable, Node.apps, hb] using nothing
    | scripted a => rw [Node.apps, hb]
  simp [idle, heldBelow, none]

theorem attemptsOf_eq_flatMap (f : Forest) (l : List Shape) :
    f.attemptsOf l = l.flatMap f.attemptsBelow := by
  induction l with
  | nil => rfl
  | cons s rest ih => rw [attemptsOf, List.flatMap_cons, ih]

/-- The attempts below a queue are those of its queues, each before the queues below it. -/
theorem attemptsBelow_eq_flatMap {s : Shape} (carried : f.Carries s) :
    f.attemptsBelow s = s.ids.flatMap fun q => (f.node q).attempts := by
  induction s with
  | node q below ih =>
    rw [Shape.ids_node, List.flatMap_cons]
    rcases carried.body_root with ⟨c, hb⟩ | ⟨l, hb⟩
    · have none : (f.node q).attempts = [] := by rw [Node.attempts, hb]
      rw [attemptsBelow, hb, attemptsOf_eq_flatMap, none, List.nil_append, List.flatMap_assoc]
      exact List.flatMap_congr fun s hs => ih s hs (carried.of_mem_below hs)
    · rw [attemptsBelow, hb, carried.below_leaf hb, List.flatMap_nil, List.flatMap_nil,
        List.append_nil]

theorem length_attempts_of_plain {n : Node} (plain : n.isScripted = false) :
    n.attempts.length = n.apps.length := by
  rcases Node.body_of_not_scripted plain with ⟨c, hb⟩ | ⟨l, hb⟩
  · simp [Node.attempts, Node.apps, hb]
  · simp [Node.attempts, Node.apps, hb]

/-- What is gathered below a queue are the applications of the queues that child lists lead to from
there. -/
theorem Owned.length_attempts (owned : f.Owned) (known : p < f.nodes.size) :
    (f.attempts p).length = ((f.queues p).flatMap fun q => (f.node q).apps).length := by
  have each : (fun q => (f.node q).attempts.length) = fun q => (f.node q).apps.length :=
    funext fun q => length_attempts_of_plain (owned.plain q)
  rw [attempts, attemptsBelow_eq_flatMap (owned.isTree known).carries, queues_eq_ids,
    List.length_flatMap, List.length_flatMap, each]

/-- Where every queue is listed by the queue it was created under, gathering the attempts below a
composite queue finds every application in the leaves created below it. -/
theorem Linked.length_attempts (linked : f.Linked) (hp : (f.node p).isComposite = true) :
    (f.attempts p).length = (f.heldBelow p).length := by
  have known : p < f.nodes.size := lt_size_of_isComposite hp
  rw [Owned.length_attempts linked.toOwned known,
    ((linked.queues_perm known).flatMap_right _).length_eq, List.flatMap_cons,
    Node.apps_of_isComposite hp, List.nil_append, heldBelow]

end Forest

namespace QueueTree

/-- A tree in which nothing was submitted yet. -/
structure Unused (t : QueueTree) : Prop extends Alive t where
  idle : ∀ q, (t.forest.node q).runnable = 0

theorem unused_of_build {t : QueueTree} {factory : PolicyFactory} {a : Allocation}
    {asked : List String} (built : buildWith factory a = (asked, .ok t)) : t.Unused :=
  have grown := grown_of_build built
  ⟨grown.toOrderly.alive, grown.idle⟩

namespace Alive

variable {t t' : QueueTree} (alive : t.Alive)

include alive

/-- A new leaf holds nothing, so the counts stay right. -/
theorem counted_adds (counted : t.forest.Counted) {n : Node} {p : QueueId} (adds : Adds t t' n p)
    (joins : t.forest.Joins n p) (leaf : n.isComposite = false) (empty : n.apps = []) :
    t'.forest.Counted := by
  intro r hr
  have apps := adds.field (fun n => n.apps.length) Node.length_apps_roster
  rw [adds.field Node.isComposite Node.roster_isComposite] at hr
  rw [adds.field Node.runnable Node.roster_runnable]
  split at hr
  · simp [leaf] at hr
  next other =>
  rw [if_neg other, counted r hr, Forest.length_heldBelow, Forest.length_heldBelow,
    adds.createdBelow joins alive.lineage, List.map_append, List.sum_append]
  have old : (t.forest.createdBelow r).map (fun q => (t'.forest.node q).apps.length) =
      (t.forest.createdBelow r).map fun q => (t.forest.node q).apps.length := by
    refine List.map_congr_left fun q hq => ?_
    have known := ((alive.lineage.mem_createdBelow).1 hq).lt_size
    rw [apps, if_neg known.ne]
  have new : ∀ x ∈ ([t.forest.nodes.size].filter fun q => r ∈ t'.forest.ancestors q).map
      (fun q => (t'.forest.node q).apps.length), x = 0 := by
    intro x hx
    obtain ⟨q, hq, rfl⟩ := List.mem_map.1 hx
    rw [apps, if_pos (List.mem_singleton.1 (List.mem_filter.1 hq).1), empty]
    rfl
  rw [old, List.sum_eq_zero_iff_forall_eq_nat.2 new, Nat.add_zero]

theorem createLeaf (counted : t.forest.Counted) (name : String) (policy : Policy) :
    (t.createLeaf name policy).1.Alive ∧ (t.createLeaf name policy).1.forest.Counted := by
  refine t.createLeaf_preserves (P := fun t => t.Alive ∧ t.forest.Counted) name policy
    ⟨alive, counted⟩ (fun parent _ => ?refused) fun t' parent new hp adds => ?added
  case refused =>
    have same : Forest.Akin t.forest (t.withSink name parent).forest := .of_nodes rfl
    exact ⟨alive.of_kin same.toKin rfl, Forest.counted_of_roster counted rfl⟩
  case added =>
    have joins := alive.joins (n := t.newQueue name parent policy (.leaf {})) hp rfl rfl rfl
    exact ⟨alive.adds adds joins rfl, alive.counted_adds counted adds joins rfl rfl⟩

end Alive

end QueueTree

namespace System

/-- Every operation leaves the counts right. -/
theorem counted_perform {s : System} (alive : s.tree.Alive) (counted : s.forest.Counted)
    (e : Event) : (s.perform e).tree.Alive ∧ (s.perform e).forest.Counted := by
  have quiet (h : e.keepsRoster = true) :
      (s.perform e).tree.Alive ∧ (s.perform e).forest.Counted := by
    have roster := roster_perform (s := s) h
    have settled (name : String) (policy : Policy) : e ≠ .createLeaf name policy := by
      rintro rfl
      cases h
    have composites : (s.perform e).tree.composites = s.tree.composites := by
      rw [tree_perform settled]
    exact ⟨alive.of_kin (Forest.kin_of_roster roster) composites,
      Forest.counted_of_roster counted roster⟩
  cases e with
  | createLeaf name policy => exact alive.createLeaf counted name policy
  | submit q attempt user =>
    rw [perform]
    cases h : s.forest.submit? q attempt user with
    | none => exact ⟨alive, counted⟩
    | some g =>
      exact ⟨alive.of_kin (Forest.akin_submit h).toKin rfl,
        Forest.counted_submit alive.lineage counted h⟩
  | finish q attempt =>
    rw [perform]
    cases h : s.forest.finish? q attempt with
    | none => exact ⟨alive, counted⟩
    | some answer =>
      obtain ⟨g, user⟩ := answer
      exact ⟨alive.of_kin (Forest.akin_finish h).toKin rfl,
        Forest.counted_finish alive.lineage counted h⟩
  | _ => exact quiet rfl

theorem counted_run {s : System} (alive : s.tree.Alive) (counted : s.forest.Counted)
    (events : List Event) : (s.run events).tree.Alive ∧ (s.run events).forest.Counted :=
  run_preserves (P := fun s => s.tree.Alive ∧ s.forest.Counted)
    (fun _ e (_ : True) h => counted_perform h.1 h.2 e) (fun _ _ => trivial) ⟨alive, counted⟩

theorem orderly_run {s : System} (orderly : s.tree.Orderly) {events : List Event}
    (stays : ∀ e ∈ events, e.rearranges = false) : (s.run events).tree.Orderly :=
  run_preserves (P := fun s => s.tree.Orderly) (fun _ _ stays h => orderly_perform h stays) stays
    orderly

/-- Whatever is done with a tree in which nothing was submitted before, every composite queue counts
the applications in the leaves that were created below it, attached or not, and no application is
counted out where none is counted.  In a tree that was built, while nothing is attached or detached
by hand, these are the applications that are gathered below the queue. -/
theorem runnable_of_run {s : System} (unused : s.tree.Unused) (events : List Event) :
    let f := (s.run events).forest
    (∀ p q, q ∈ f.createdBelow p ↔ f.Above p q) ∧
    (∀ p, (f.node p).isComposite = true → (f.node p).runnable = (f.heldBelow p).length) ∧
    (∀ q attempt g user, f.finish? q attempt = some (g, user) →
      ∃ m, let h := f.update q (Node.mapLeaf fun _ => m)
        g = h.countAbove Forest.countOut q ∧ h.undercounts (h.ancestors q) = false) ∧
    (∀ factory a asked, QueueTree.buildWith factory a = (asked, .ok s.tree) →
      (∀ e ∈ events, e.rearranges = false) →
      ∀ p, (f.node p).isComposite = true → (f.node p).runnable = (f.attempts p).length) := by
  intro f
  obtain ⟨alive, counted⟩ :=
    counted_run unused.toAlive (Forest.counted_of_idle unused.idle) events
  refine ⟨fun p q => alive.lineage.mem_createdBelow, counted, ?_, ?_⟩
  · intro q attempt g user h
    obtain ⟨l, m, hb, hm, rfl⟩ := Forest.finish?_eq_some.1 h
    exact ⟨m, rfl, Forest.not_undercounts alive.lineage counted hb hm⟩
  · intro factory a asked built stays p hp
    have orderly := orderly_run (QueueTree.grown_of_build built).toOrderly stays
    exact (counted p hp).trans (orderly.linked.length_attempts hp).symm

/-- A leaf is detached and goes on, and another one is created. -/
def turnover : List Event :=
  [.submit 1 ⟨⟨1⟩, 1⟩ "ann", .detach 0 "root.a", .submit 1 ⟨⟨2⟩, 1⟩ "ann",
    .createLeaf "root.b" .fair, .submit 2 ⟨⟨3⟩, 1⟩ "bob", .finish 1 ⟨⟨1⟩, 1⟩]

/-- The application in the leaf that is detached is counted, but not gathered. -/
theorem runnable_of_run_turnover :
    ∃ asked t, QueueTree.build QueueTree.resolveNamed QueueTree.oneLeaf = (asked, .ok t) ∧
      let s := ({ tree := t } : System).run turnover
      t.Unused ∧ (s.forest.node 0).runnable = (s.forest.heldBelow 0).length ∧
        (s.forest.node 0).runnable = 2 ∧ (s.forest.attempts 0).length = 1 := by
  let later (t : QueueTree) : Forest := (({ tree := t } : System).run turnover).forest
  have facts : ∀ t ∈ (QueueTree.build QueueTree.resolveNamed QueueTree.oneLeaf).2.toOption,
      ((later t).node 0).isComposite = true ∧ ((later t).node 0).runnable = 2 ∧
        ((later t).attempts 0).length = 1 := by decide +kernel
  obtain ⟨asked, t, built, composite, counts, gathers⟩ :=
    QueueTree.exists_built (by decide +kernel) facts
  have unused : t.Unused := QueueTree.unused_of_build built
  obtain ⟨-, counted, -, -⟩ := runnable_of_run (s := { tree := t }) unused turnover
  exact ⟨asked, t, built, unused, counted 0 composite, counts, gathers⟩

end System
end FairShare
