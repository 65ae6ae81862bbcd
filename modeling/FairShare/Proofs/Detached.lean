import FairShare.Proofs.Counters

/-!
Counters where queues are detached and put back.  A queue that is detached is no longer among the
children of the queue it was created under, but that one goes on counting what it counts: the
counters of the children add up to the counter of their parent if and only if the detached queues
count nothing, and what is gathered below a queue is what it counts if and only if nothing is held
out of its reach.
-/

namespace FairShare

/-- A list without repetitions makes up any list it is part of, with what that one has besides. -/
theorem append_diff_perm {l m : List QueueId} (distinct : l.Nodup) (part : l ⊆ m) :
    (l ++ m.diff l).Perm m :=
  List.subperm_append_diff_self_of_count_le fun q _ =>
    (List.subperm_of_subset distinct part).count_le q

namespace Forest

/-- The queues that were created directly under a queue, listed or not. -/
def createdUnder (f : Forest) (p : QueueId) : List QueueId :=
  (List.range f.nodes.size).filter fun q => (f.node q).parent = some p

variable {f : Forest} {p q c : QueueId}

theorem mem_createdUnder : q ∈ f.createdUnder p ↔ (f.node q).parent = some p := by
  rw [createdUnder, List.mem_filter, decide_eq_true_eq, List.mem_range]
  exact ⟨And.right, fun h => ⟨lt_size_of_parent h, h⟩⟩

theorem nodup_createdUnder (f : Forest) (p : QueueId) : (f.createdUnder p).Nodup :=
  List.nodup_range.filter _

namespace Lineage

variable (lineage : f.Lineage)

include lineage

theorem mem_self_createdBelow : q ∈ c :: f.createdBelow c ↔ c = q ∨ f.Above c q := by
  rw [List.mem_cons, lineage.mem_createdBelow, eq_comm]

theorem nodup_self_createdBelow (c : QueueId) : (c :: f.createdBelow c).Nodup := by
  refine List.nodup_cons.2 ⟨fun h => ?_, f.nodup_createdBelow c⟩
  exact Nat.lt_irrefl c (lineage.lt_of_above (lineage.mem_createdBelow.1 h))

/-- Below a queue was created what was created under it, and below each of that. -/
theorem createdBelow_perm (p : QueueId) :
    (f.createdBelow p).Perm ((f.createdUnder p).flatMap fun c => c :: f.createdBelow c) := by
  have distinct : ((f.createdUnder p).flatMap fun c => c :: f.createdBelow c).Nodup := by
    refine List.nodup_flatMap.2
      ⟨fun c _ => lineage.nodup_self_createdBelow c, (f.nodup_createdUnder p).imp_of_mem ?_⟩
    -- Only one child leads down to a queue.
    intro c d hc hd other
    refine List.disjoint_left.2 fun q cq dq => ?_
    exact other (lineage.child_unique (mem_createdUnder.1 hc) (mem_createdUnder.1 hd)
      (lineage.mem_self_createdBelow.1 cq) (lineage.mem_self_createdBelow.1 dq))
  refine (List.perm_ext_iff_of_nodup (f.nodup_createdBelow p) distinct).2 fun q => ?_
  rw [lineage.mem_createdBelow, List.mem_flatMap]
  simp only [mem_createdUnder, lineage.mem_self_createdBelow]
  constructor
  · exact Above.exists_child
  · rintro ⟨c, hc, rfl | above⟩
    · exact .parent hc
    · exact (Above.parent hc).trans above

/-- A queue counts what is held in it and below it. -/
theorem runnable_eq (counted : f.Counted) (plain : (f.node q).isScripted = false) :
    (f.node q).runnable = ((q :: f.createdBelow q).flatMap fun q => (f.node q).apps).length := by
  rw [List.flatMap_cons, List.length_append]
  rcases Node.body_of_not_scripted plain with ⟨c, hb⟩ | ⟨l, hb⟩
  · have composite : (f.node q).isComposite = true := by simp [Node.isComposite, hb]
    rw [counted q composite, Node.apps_of_composite hb]
    exact (Nat.zero_add _).symm
  · -- Nothing was created below a leaf.
    have none : f.createdBelow q = [] := by
      refine List.eq_nil_iff_forall_not_mem.2 fun c hc => ?_
      have composite := lineage.isComposite_of_above (lineage.mem_createdBelow.1 hc)
      simp [Node.isComposite, hb] at composite
    rw [none, Node.runnable, Node.apps, hb]
    rfl

end Lineage

namespace Owned

variable (owned : f.Owned)

include owned

/-- A composite queue counts what the queues created under it count together. -/
theorem runnable_eq_sum (counted : f.Counted) (hp : (f.node p).isComposite = true) :
    (f.node p).runnable = ((f.createdUnder p).map fun c => (f.node c).runnable).sum := by
  have each (c : QueueId) := owned.runnable_eq counted (owned.plain c)
  rw [counted p hp, heldBelow, ((owned.createdBelow_perm p).flatMap_right _).length_eq,
    List.flatMap_assoc, List.length_flatMap]
  simp only [each]

/-- The counters of the children add up, unless a detached queue counts something. -/
theorem runnable_eq_children_iff (counted : f.Counted) (hp : (f.node p).isComposite = true) :
    (f.node p).runnable = ((f.node p).children.map fun c => (f.node c).runnable).sum ↔
      ∀ c, (f.node c).parent = some p → c ∉ (f.node p).children → (f.node c).runnable = 0 := by
  have part : (f.node p).children ⊆ f.createdUnder p := fun c hc =>
    mem_createdUnder.2 (owned.own hc)
  have split := ((append_diff_perm (owned.once p) part).map fun c => (f.node c).runnable).sum_nat
  have detached (c : QueueId) : c ∈ (f.createdUnder p).diff (f.node p).children ↔
      (f.node c).parent = some p ∧ c ∉ (f.node p).children := by
    rw [(f.nodup_createdUnder p).mem_sdiff_iff, mem_createdUnder]
  rw [List.map_append, List.sum_append] at split
  rw [owned.runnable_eq_sum counted hp, ← split, Nat.add_eq_left,
    List.sum_eq_zero_iff_forall_eq_nat, List.forall_mem_map]
  simp only [detached, and_imp]

/-- What is gathered below a composite queue is what it counts, unless something is held in a leaf
that was created below it and is out of its reach. -/
theorem runnable_eq_attempts_iff (counted : f.Counted) (hp : (f.node p).isComposite = true) :
    (f.node p).runnable = (f.attempts p).length ↔
      ∀ q, f.Above p q → q ∉ f.queues p → (f.node q).apps = [] := by
  have known := lt_size_of_isComposite hp
  have part : f.queues p ⊆ p :: f.createdBelow p := fun q hq =>
    owned.mem_self_createdBelow.2 ((owned.above_of_mem_queues hq).imp_left Eq.symm)
  have split := ((append_diff_perm (owned.isTree known).distinct part).flatMap_right
    fun q => (f.node q).apps).length_eq
  have away (q : QueueId) : q ∈ (p :: f.createdBelow p).diff (f.queues p) ↔
      f.Above p q ∧ q ∉ f.queues p := by
    rw [(owned.nodup_self_createdBelow p).mem_sdiff_iff, owned.mem_self_createdBelow]
    refine and_congr_left fun h => or_iff_right ?_
    rintro rfl
    exact h (f.mem_queues_self p)
  rw [List.flatMap_append, List.length_append] at split
  rw [owned.runnable_eq counted (owned.plain p), ← split, owned.length_attempts known,
    Nat.add_eq_left, List.length_eq_zero_iff, List.flatMap_eq_nil_iff]
  simp only [away, and_imp]

/-- A child list that changes may lose queues, and list anew what was created under its queue. -/
theorem relist {k : List QueueId → List QueueId} (once : (k (f.node p).children).Nodup)
    (own : ∀ c ∈ k (f.node p).children, (f.node c).parent = some p) :
    (f.updateComposite p fun c => { c with children := k c.children }).Owned := by
  generalize hg : f.updateComposite p (fun c => { c with children := k c.children }) = g
  have kin : Kin f g := hg ▸ kin_updateComposite f p _
  have children (q : QueueId) : (g.node q).children = (f.node q).children ∨
      q = p ∧ (g.node q).children = k (f.node p).children := by
    rw [← hg, node_updateComposite]
    split
    · next h =>
      subst h
      cases hb : (f.node q).body <;> simp [Node.mapComposite, Node.children, hb]
    · exact .inl rfl
  refine
    { toLineage := kin.lineage owned.toLineage
      plain := fun q => ?plain
      once := fun q => ?once
      own := fun {q c} hc => ?own }
  case plain =>
    rw [← hg, node_updateComposite]
    split
    · rw [Node.mapComposite_isScripted, owned.plain]
    · exact owned.plain q
  case once =>
    rcases children q with same | ⟨rfl, changed⟩
    · rw [same]
      exact owned.once q
    · rw [changed]
      exact once
  case own =>
    rw [kin.parent]
    rcases children q with same | ⟨rfl, changed⟩
    · exact owned.own (same ▸ hc)
    · exact own c (changed ▸ hc)

theorem detach {g : Forest} {name : String} (h : f.detach? p name = some g) : g.Owned := by
  rw [detach?] at h
  split at h
  · cases h
    exact owned.relist (List.eraseP_sublist.nodup (owned.once p)) fun c hc =>
      owned.own (List.mem_of_mem_eraseP hc)
  · cases h

/-- A queue can be listed again where it was created. -/
theorem attach (parent : (f.node c).parent = some p) (away : c ∉ (f.node p).children) :
    (f.attach p c).Owned := by
  refine owned.relist (k := (· ++ [c])) ?_ fun d hd => ?_
  · exact List.concat_eq_append ▸ (List.nodup_concat _ _).2 ⟨away, owned.once p⟩
  · rcases List.mem_append.1 hd with hd | hd
    · exact owned.own hd
    · rw [List.mem_singleton.1 hd, parent]

end Owned
end Forest

namespace QueueTree

/-- A tree whose queues are listed once at most, and only where they were created. -/
structure Unshared (t : QueueTree) : Prop where
  owned : t.forest.Owned
  root : t.root < t.forest.nodes.size

variable {t t' : QueueTree}

theorem unshared_of_build {factory : PolicyFactory} {a : Allocation} {asked : List String}
    (built : buildWith factory a = (asked, .ok t)) : t.Unshared :=
  have grown := grown_of_build built
  ⟨grown.linked.toOwned, grown.known_root⟩

namespace Unshared

variable (unshared : t.Unshared)

include unshared

theorem of_akin (akin : Forest.Akin t.forest t'.forest) (root : t'.root = t.root) :
    t'.Unshared where
  owned := unshared.owned.of_akin akin
  root := by rw [root, akin.size]; exact unshared.root

theorem createLeaf (alive : t.Alive) (name : String) (policy : Policy) :
    (t.createLeaf name policy).1.Unshared := by
  refine t.createLeaf_preserves name policy unshared
    (fun _ _ => unshared.of_akin (.of_nodes rfl) rfl) fun t' parent new hp adds => ?_
  have joins := alive.joins (n := t.newQueue name parent policy (.leaf {})) hp rfl rfl rfl
  refine ⟨(joins.owned unshared.owned).of_akin (.of_nodes adds.nodes), ?_⟩
  rw [adds.root, adds.size]
  exact Nat.lt_succ_of_lt unshared.root

end Unshared
end QueueTree

namespace System

/-- Whether an operation that attaches a queue puts it back where it was created. -/
def Restores (s : System) : Event → Prop
  | .attach p c => (s.forest.node c).parent = some p ∧ c ∉ (s.forest.node p).children
  | _ => True

/-- Operations, one after the other, that attach queues only where they were created. -/
def Restoring : System → List Event → Prop
  | _, [] => True
  | s, e :: rest => s.Restores e ∧ (s.perform e).Restoring rest

theorem unshared_perform {s : System} (unshared : s.tree.Unshared) (alive : s.tree.Alive)
    {e : Event} (restores : s.Restores e) : (s.perform e).tree.Unshared := by
  have root (keeps : e.keepsRoster = true) : s.tree.root < (s.perform e).forest.nodes.size := by
    rw [(Forest.kin_of_roster (roster_perform keeps)).size]
    exact unshared.root
  have quiet (stays : e.rearranges = false) (settled : ∀ name policy, e ≠ .createLeaf name policy) :
      (s.perform e).tree.Unshared := by
    have akin := akin_perform unshared.owned unshared.root stays settled
    rw [tree_perform settled]
    exact unshared.of_akin akin rfl
  cases e with
  | createLeaf name policy => exact unshared.createLeaf alive name policy
  | attach p c => exact ⟨unshared.owned.attach restores.1 restores.2, root rfl⟩
  | detach p name =>
    refine ⟨?_, root rfl⟩
    show ((s.forest.detach? p name).getD s.forest).Owned
    cases h : s.forest.detach? p name with
    | none => exact unshared.owned
    | some g => exact unshared.owned.detach h
  | _ => exact quiet rfl (fun _ _ h => by cases h)

/-- What every operation of a run preserves that attaches queues only where they were created, the
run preserves. -/
theorem run_preserves_of_restoring {P : System → Prop}
    (each : ∀ s e, s.Restores e → P s → P (s.perform e)) {s : System} {events : List Event}
    (restoring : s.Restoring events) (holds : P s) : P (s.run events) := by
  induction events generalizing s with
  | nil => exact holds
  | cons e rest ih => exact ih restoring.2 (each s e restoring.1 holds)

/-- Whatever is done with a tree, if queues are only attached where they were created: what a
composite queue counts is what its children count together if and only if the queues that were
detached from it count nothing, and it is what is gathered below it if and only if nothing is held
in a leaf that was created below it and that the child lists do not lead to. -/
theorem runnable_eq_sum_iff_of_run {s : System} (unused : s.tree.Unused)
    (unshared : s.tree.Unshared) {events : List Event} (restoring : s.Restoring events)
    {p : QueueId} (composite : ((s.run events).forest.node p).isComposite = true) :
    let f := (s.run events).forest
    (f.node p).runnable = (f.heldBelow p).length ∧
    ((f.node p).runnable = ((f.node p).children.map fun c => (f.node c).runnable).sum ↔
      ∀ c, (f.node c).parent = some p → c ∉ (f.node p).children → (f.node c).runnable = 0) ∧
    ((f.node p).runnable = (f.attempts p).length ↔
      ∀ q, f.Above p q → q ∉ f.queues p → (f.node q).apps = []) := by
  intro f
  have start : (s.tree.Alive ∧ s.forest.Counted) ∧ s.tree.Unshared :=
    ⟨⟨unused.toAlive, Forest.counted_of_idle unused.idle⟩, unshared⟩
  obtain ⟨⟨-, counted⟩, unshared⟩ := run_preserves_of_restoring
    (P := fun s => (s.tree.Alive ∧ s.forest.Counted) ∧ s.tree.Unshared)
    (fun _ e restores ⟨⟨alive, counted⟩, unshared⟩ =>
      ⟨counted_perform alive counted e, unshared_perform unshared alive restores⟩)
    restoring start
  exact ⟨counted p composite, unshared.owned.runnable_eq_children_iff counted composite,
    unshared.owned.runnable_eq_attempts_iff counted composite⟩

/-- A leaf is detached, one of its applications ends, and it is put back. -/
def absence : List Event :=
  [.submit 1 ⟨⟨1⟩, 1⟩ "ann", .detach 0 "root.a", .submit 1 ⟨⟨2⟩, 1⟩ "bob", .finish 1 ⟨⟨1⟩, 1⟩,
    .attach 0 1]

/-- Once the leaf is back, no detached queue counts anything. -/
theorem runnable_eq_sum_iff_of_run_absence :
    ∃ asked t, QueueTree.build QueueTree.resolveNamed QueueTree.oneLeaf = (asked, .ok t) ∧
      let f := (({ tree := t } : System).run absence).forest
      t.Unused ∧ t.Unshared ∧ ({ tree := t } : System).Restoring absence ∧
        (f.node 0).isComposite = true ∧ (f.node 0).runnable = 1 ∧
        (∀ c, (f.node c).parent = some 0 → c ∉ (f.node 0).children → (f.node c).runnable = 0) ∧
        ∀ q, f.Above 0 q → q ∉ f.queues 0 → (f.node q).apps = [] := by
  let before (t : QueueTree) : Forest := (({ tree := t } : System).run (absence.take 4)).forest
  let after (t : QueueTree) : Forest := (({ tree := t } : System).run absence).forest
  have facts : ∀ t ∈ (QueueTree.build QueueTree.resolveNamed QueueTree.oneLeaf).2.toOption,
      (((before t).node 1).parent = some 0 ∧ 1 ∉ ((before t).node 0).children) ∧
        ((after t).node 0).isComposite = true ∧ ((after t).node 0).runnable = 1 ∧
        ((after t).node 0).runnable =
          (((after t).node 0).children.map fun c => ((after t).node c).runnable).sum ∧
        ((after t).node 0).runnable = ((after t).attempts 0).length := by decide +kernel
  obtain ⟨asked, t, built, back, composite, counts, adds, gathers⟩ :=
    QueueTree.exists_built (by decide +kernel) facts
  have unused : t.Unused := QueueTree.unused_of_build built
  have unshared : t.Unshared := QueueTree.unshared_of_build built
  have restoring : ({ tree := t } : System).Restoring absence :=
    ⟨trivial, trivial, trivial, trivial, back, trivial⟩
  obtain ⟨-, sum, gathered⟩ :=
    runnable_eq_sum_iff_of_run (s := { tree := t }) unused unshared restoring composite
  exact ⟨asked, t, built, unused, unshared, restoring, composite, counts, sum.1 adds,
    gathered.1 gathers⟩

/-- A root goes on counting the application in a leaf that was detached from it. -/
theorem runnable_counts_detached :
    ∃ asked t, QueueTree.build QueueTree.resolveNamed QueueTree.oneLeaf = (asked, .ok t) ∧
      let f := (({ tree := t } : System).run
        [.submit 1 ⟨⟨1⟩, 1⟩ "ann", .detach 0 "root.a"]).forest
      (f.node 0).isComposite = true ∧ (f.node 0).runnable = 1 ∧
        ((f.node 0).children.map fun c => (f.node c).runnable).sum = 0 ∧
        f.attempts 0 = [] :=
  QueueTree.exists_built (by decide +kernel) (by decide +kernel)

end System
end FairShare
