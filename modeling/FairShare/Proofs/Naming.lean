import FairShare.Proofs.Counters
import FairShare.Proofs.Segments

/-!
Which names a tree has.  The names in an allocation are checked when a tree is built, and so are the
paths above them.  A leaf that is created later is only looked for, and so is its parent: its name
is a legal path unless it ends at the dot after its parent path.
-/

namespace FairShare

theorem error_of_forM {ε α : Type} {check : α → Except ε Unit} {l : List α} {e : ε}
    (h : l.forM check = .error e) : ∃ x ∈ l, check x = .error e := by
  induction l with
  | nil => cases h
  | cons y rest ih =>
    rw [List.forM] at h
    cases first : check y with
    | error e' =>
      rw [first] at h
      cases h
      exact ⟨y, by simp, first⟩
    | ok u =>
      rw [first] at h
      obtain ⟨x, hx, failed⟩ := ih h
      exact ⟨x, by simp [hx], failed⟩

namespace Allocation

variable {a : Allocation} {name : String}

/-- An allocation that is refused for a name has that name. -/
theorem exists_of_check_eq_name {fault : Path.Fault} (refused : a.check = .error (.name fault)) :
    ∃ queue ∈ a.queues.names, Path.check queue = .error fault := by
  rw [check] at refused
  by_cases part : isPart a.defaultThreshold = true
  · rw [if_pos part] at refused
    obtain ⟨⟨queue, settings⟩, entry, failed⟩ := error_of_forM refused
    refine ⟨queue, Table.mem_names.2 ⟨settings, Table.get?_eq_some_iff.2 entry⟩, ?_⟩
    cases hname : Path.check queue with
    | error e =>
      simp only [hname] at failed
      cases failed
      rfl
    | ok u =>
      cases hsettings : settings.check <;> simp only [hname, hsettings] at failed <;> cases failed
  · rw [if_neg part] at refused
    cases refused

/-- The names that get a queue are legal if the allocation is. -/
theorem HasQueue.check (h : a.HasQueue name) (checked : a.check = .ok ()) :
    Path.check name = .ok () := by
  rcases h with rfl | ⟨queue, hq, rfl | above⟩
  · decide
  · exact path_check checked hq
  · exact above.check (path_check checked hq)

end Allocation

namespace QueueTree

/-- The composite queues of a tree have legal paths, and its leaves are below composite queues. -/
structure Named (t : QueueTree) : Prop where
  composites : ∀ {name p}, t.composites.get? name = some p → Path.check name = .ok ()
  leaves : ∀ {name q}, t.leaves.get? name = some q → ∃ p, t.parentOf? name = some p

theorem named_of_build {t : QueueTree} {factory : PolicyFactory} {a : Allocation}
    {asked : List String} (built : buildWith factory a = (asked, .ok t)) : t.Named := by
  have checked := (build_allocation built).1
  have describes := (grown_of_build built).describes
  refine ⟨fun {name p} h => ?_, fun {name q} h => ?_⟩
  · exact ((describes.composites name).1 ⟨p, h⟩).hasQueue.check checked
  · obtain ⟨has, leaf⟩ := (describes.leaves name).1 ⟨q, h⟩
    have other : name ≠ Path.root := fun root => leaf (.inl root)
    obtain ⟨above, hp, -, composite⟩ := exists_planned_parent checked has other
    obtain ⟨p, h⟩ := (describes.composites above).2 composite
    exact ⟨p, by rw [parentOf?, hp, Option.bind_some, h]⟩

/-- The queues of a tree are those it can look up. -/
theorem mem_names_iff (t : QueueTree) {name : String} : name ∈ t.names ↔
    (∃ p, t.composites.get? name = some p) ∨ ∃ q, t.leaves.get? name = some q := by
  rw [names, Table.mem_names_tabulate, List.mem_append, Table.mem_names, Table.mem_names]

section

variable {t t' : QueueTree} {name : String} {n : Node} {p : QueueId}

theorem Adds.mem_names (adds : Adds t t' n p) :
    name ∈ t'.names ↔ name ∈ t.names ∨ n.name = name := by
  rw [mem_names_iff, mem_names_iff, adds.composites, adds.leaves]
  cases n.isComposite <;> by_cases h : name = n.name <;> simp [h, eq_comm]

namespace Named

variable (named : t.Named)

include named

theorem of_lookups (composites : t'.composites = t.composites) (leaves : t'.leaves = t.leaves) :
    t'.Named where
  composites h := named.composites (composites ▸ h)
  leaves h := by
    rw [parentOf?, composites]
    exact named.leaves (leaves ▸ h)

theorem adds (adds : Adds t t' n p) (leaf : n.isComposite = false)
    (hp : t.parentOf? n.name = some p) : t'.Named := by
  have composites : t'.composites = t.composites := by rw [adds.composites, leaf]; rfl
  refine ⟨fun h => named.composites (composites ▸ h), fun {name q} h => ?_⟩
  rw [parentOf?, composites]
  rw [adds.leaves, if_pos leaf, Table.get?_insert] at h
  split at h
  · next same => exact ⟨p, same ▸ hp⟩
  · exact named.leaves h

theorem createLeaf (name : String) (policy : Policy) : (t.createLeaf name policy).1.Named :=
  t.createLeaf_preserves name policy named (fun _ _ => named.of_lookups rfl rfl)
    fun _ _ _ hp adds => named.adds adds rfl hp

/-- A leaf is below a legal path. -/
theorem parent_check {q : QueueId} (h : t.leaves.get? name = some q) :
    ∃ above, Path.parent? name = some above ∧ Path.check above = .ok () := by
  obtain ⟨p, hp⟩ := named.leaves h
  obtain ⟨above, habove, h⟩ := Option.bind_eq_some_iff.1 hp
  exact ⟨above, habove, named.composites h⟩

/-- Every name begins at the root. -/
theorem head_segments (h : name ∈ t.names) :
    (Path.segments name).head? = some Path.root := by
  rcases t.mem_names_iff.1 h with ⟨p, h⟩ | ⟨q, h⟩
  · exact (Path.check_eq_ok_iff.1 (named.composites h)).1
  · obtain ⟨above, habove, checked⟩ := named.parent_check h
    rw [Path.segments_of_parent? habove, List.head?_append, (Path.check_eq_ok_iff.1 checked).1]
    rfl

/-- It is a legal path unless its last segment is empty. -/
theorem check_iff (h : name ∈ t.names) :
    Path.check name = .ok () ↔ Path.lastSegment name ≠ "" := by
  rcases t.mem_names_iff.1 h with ⟨p, h⟩ | ⟨q, h⟩
  · have checked := named.composites h
    exact ⟨fun _ => Path.lastSegment_of_check checked, fun _ => checked⟩
  · obtain ⟨above, habove, checked⟩ := named.parent_check h
    exact Path.check_iff_of_parent? habove checked

/-- The fault of a name that is not legal is an empty segment. -/
theorem check_eq_error (h : name ∈ t.names) {fault : Path.Fault}
    (failed : Path.check name = .error fault) :
    Path.lastSegment name = "" ∧ fault = .emptySegment name := by
  have rooted := Path.isRooted_iff.2 (named.head_segments h)
  constructor
  · by_contra legal
    rw [(named.check_iff h).2 legal] at failed
    cases failed
  · rw [Path.check, rooted] at failed
    split at failed
    · contradiction
    · split at failed <;> cases failed
      rfl

end Named

end

end QueueTree

namespace System

/-- The name of the leaf that an operation creates. -/
def creates? (s : System) : Event → Option String
  | .createLeaf name policy => if (s.tree.createLeaf name policy).2.isOk then some name else none
  | _ => none

/-- The names of the leaves that a run creates. -/
def created (s : System) : List Event → List String
  | [] => []
  | e :: rest => (s.creates? e).toList ++ (s.perform e).created rest

theorem named_perform {s : System} (named : s.tree.Named) (e : Event) :
    (s.perform e).tree.Named := by
  by_cases created : ∃ name policy, e = .createLeaf name policy
  · obtain ⟨name, policy, rfl⟩ := created
    exact named.createLeaf name policy
  · rw [tree_perform fun name policy h => created ⟨name, policy, h⟩]
    exact named.of_lookups rfl rfl

theorem mem_names_perform {s : System} {e : Event} {name : String} :
    name ∈ (s.perform e).tree.names ↔ name ∈ s.tree.names ∨ s.creates? e = some name := by
  cases e with
  | createLeaf created policy =>
    show name ∈ (s.tree.createLeaf created policy).1.names ↔ _
    rw [creates?]
    generalize answer : s.tree.createLeaf created policy = result
    have ended := s.tree.createLeaf_cases created policy
    rw [answer] at ended
    cases ended with
    | duplicate known => simp [Except.isOk, Except.toBool]
    | orphan new orphan => simp [Except.isOk, Except.toBool]
    | below new hp creation =>
      cases creation with
      | refused refuses =>
        rw [(s.tree.gainsSink_withSink _ _).names]
        simp [Except.isOk, Except.toBool]
      | added applies adds =>
        rw [adds.mem_names]
        simp [Except.isOk, Except.toBool, QueueTree.newQueue]
  | _ =>
    rw [tree_perform (by simp)]
    simp [creates?, QueueTree.names]

/-- The names after a run are those before it and those of the leaves it creates. -/
theorem mem_names_run {s : System} {events : List Event} {name : String} :
    name ∈ (s.run events).tree.names ↔ name ∈ s.tree.names ∨ name ∈ s.created events := by
  induction events generalizing s with
  | nil => simp [run, created]
  | cons e rest ih =>
    show name ∈ ((s.perform e).run rest).tree.names ↔ _
    rw [ih, mem_names_perform, created, List.mem_append, Option.mem_toList,
      or_assoc]

theorem named_run {s : System} (named : s.tree.Named) (events : List Event) :
    (s.run events).tree.Named :=
  run_preserves (P := fun s => s.tree.Named) (fun _ e (_ : True) h => named_perform h e)
    (fun _ _ => trivial) named

/-- Whatever is done with a tree that was built, its names are those that get a queue and those of
the leaves that were created.  They all begin at the root, and no segment of theirs but the last one
is empty: so they all are legal paths if and only if no leaf was created under a name that ends with
an empty segment.  An allocation that has only queues of the tree is refused for a name if that is
such a name, and it is never accepted with one. -/
theorem legal_names_iff_of_run {factory : QueueTree.PolicyFactory} {a : Allocation}
    {asked : List String} {t : QueueTree} (built : QueueTree.buildWith factory a = (asked, .ok t))
    (events : List Event) :
    let s : System := { tree := t }
    let t' := (s.run events).tree
    (∀ name, name ∈ t'.names ↔ a.HasQueue name ∨ name ∈ s.created events) ∧
    (∀ name ∈ t'.names, (Path.segments name).head? = some Path.root ∧
      ("" ∈ Path.segments name ↔ Path.lastSegment name = "" ∧ name ∈ s.created events)) ∧
    ((∀ name ∈ t'.names, "" ∉ Path.segments name) ↔
      ∀ name ∈ s.created events, Path.lastSegment name ≠ "") ∧
    ∀ b : Allocation, (∀ name ∈ b.queues.names, name ∈ t'.names) →
      (∀ fault, b.check = .error (.name fault) → ∃ name ∈ b.queues.names,
        Path.lastSegment name = "" ∧ name ∈ s.created events ∧ fault = .emptySegment name) ∧
      ((∃ name ∈ b.queues.names, Path.lastSegment name = "") → b.check ≠ .ok ()) := by
  intro s t'
  have named : t'.Named := named_run (s := s) (QueueTree.named_of_build built) events
  have names (name : String) : name ∈ t'.names ↔ a.HasQueue name ∨ name ∈ s.created events := by
    rw [← (QueueTree.grown_of_build built).describes.names]
    exact mem_names_run
  have checked := (QueueTree.build_allocation built).1
  -- A planned name is legal, so a name that is not was created.
  have late {name : String} (h : name ∈ t'.names) (empty : Path.lastSegment name = "") :
      name ∈ s.created events := by
    rcases (names name).1 h with planned | created
    · exact absurd empty (Path.lastSegment_of_check (planned.check checked))
    · exact created
  have empty_iff {name : String} (h : name ∈ t'.names) :
      "" ∈ Path.segments name ↔ Path.lastSegment name = "" := by
    have legal := named.check_iff h
    rw [Path.check_eq_ok_iff, and_iff_right (named.head_segments h)] at legal
    exact not_iff_not.1 legal
  refine ⟨names, fun name h => ⟨named.head_segments h, ?_⟩, ?_, fun b among => ⟨?_, ?_⟩⟩
  · rw [empty_iff h]
    exact ⟨fun empty => ⟨empty, late h empty⟩, And.left⟩
  · constructor
    · intro legal name created empty
      have h := (names name).2 (.inr created)
      exact legal name h ((empty_iff h).2 empty)
    · intro legal name h empty
      have empty := (empty_iff h).1 empty
      exact legal name (late h empty) empty
  · intro fault refused
    obtain ⟨name, hname, failed⟩ := b.exists_of_check_eq_name refused
    have h := among name hname
    obtain ⟨empty, rfl⟩ := named.check_eq_error h failed
    exact ⟨name, hname, empty, late h empty, rfl⟩
  · rintro ⟨name, hname, empty⟩ accepted
    exact Path.lastSegment_of_check (Allocation.path_check accepted hname) empty

/-- Two leaves below the root, one of them without a name of its own. -/
def unnamedLeaf : List Event := [.createLeaf "root.b" .fair, .createLeaf "root." .fair]

/-- An allocation for the leaf without a name of its own. -/
def forUnnamed : Allocation := { queues := Table.ofList [("root.", {})] }

theorem legal_names_iff_of_run_unnamed :
    ∃ asked t, QueueTree.build QueueTree.resolveNamed QueueTree.oneLeaf = (asked, .ok t) ∧
      let s : System := { tree := t }
      "root." ∈ s.created unnamedLeaf ∧ "" ∈ Path.segments "root." ∧ forUnnamed.check ≠ .ok () := by
  have facts : ∀ t ∈ (QueueTree.build QueueTree.resolveNamed QueueTree.oneLeaf).2.toOption,
      "root." ∈ ({ tree := t } : System).created unnamedLeaf := by decide +kernel
  obtain ⟨asked, t, built, created⟩ := QueueTree.exists_built (by decide +kernel) facts
  obtain ⟨names, segments, -, allocations⟩ := legal_names_iff_of_run built unnamedLeaf
  have among := (names "root.").2 (.inr created)
  have empty : Path.lastSegment "root." = "" := by decide
  refine ⟨asked, t, built, created, ((segments _ among).2).2 ⟨empty, created⟩, ?_⟩
  have queues : forUnnamed.queues.names = ["root."] := by decide
  refine (allocations forUnnamed fun name h => ?_).2 ⟨"root.", by simp [queues], empty⟩
  rw [queues, List.mem_singleton] at h
  exact h ▸ among

/-- The leaf is created, and is in the tree under a name that no allocation may have. -/
theorem names_unnamedLeaf :
    ∃ asked t, QueueTree.build QueueTree.resolveNamed QueueTree.oneLeaf = (asked, .ok t) ∧
      (t.createLeaf "root." .fair).2 = .ok 2 ∧
      (t.createLeaf "root." .fair).1.names = ["root", "root.", "root.a"] ∧
      Path.segments "root." = ["root", ""] ∧
      forUnnamed.check = .error (.name (.emptySegment "root.")) :=
  QueueTree.exists_built (by decide +kernel) (by decide +kernel)

end System
end FairShare
