import FairShare.Proofs.Counters

/-!
Access along paths.  What permits an operation on a queue stands on the path of every queue below
it, so access is only gained on the way down.  In a tree the queues below a queue by their names are
those that child lists lead to; a report on permissions has an entry for each of them.
-/

namespace FairShare
namespace Path

variable {above name : String}

theorem ancestors_subset (h : IsAbove above name) : ancestors above ⊆ ancestors name := by
  intro path hpath
  rw [mem_ancestors] at hpath ⊢
  rcases hpath with rfl | further
  · exact .inr h
  · exact .inr (further.trans h)

theorem isAbove_append (name rest : String) : IsAbove name (name ++ "." ++ rest) := by
  refine ⟨rest.toList, ?_⟩
  rw [String.toList_append, String.toList_append, List.append_assoc]
  rfl

end Path

namespace Allocation

variable {a : Allocation} {above name : String} {operation : Operation} {user : String}

/-- Access is not lost on the way down a path. -/
theorem hasAccess_of_isAbove (h : Path.IsAbove above name)
    (access : a.hasAccess above operation user = true) :
    a.hasAccess name operation user = true := by
  rw [hasAccess, Bool.or_eq_true] at access ⊢
  apply access.imp_left
  intro permitted
  rw [List.any_eq_true] at permitted ⊢
  obtain ⟨path, hpath, permits⟩ := permitted
  exact ⟨path, Path.ancestors_subset h hpath, permits⟩

end Allocation

namespace QueueTree.Orderly

variable {t : QueueTree} (orderly : t.Orderly) {p q : QueueId}

include orderly

theorem parent?_name (known : q < t.forest.nodes.size) (hp : (t.forest.node q).parent = some p) :
    Path.parent? (t.forest.node q).name = some (t.forest.node p).name := by
  -- The parent of a queue is the one that the look-up gives for the path above its name.
  have parent := orderly.parent known
  obtain ⟨above, habove, h⟩ := Option.bind_eq_some_iff.1 (parent.symm.trans hp)
  obtain ⟨-, rfl, -⟩ := (orderly.composites above p).1 h
  exact habove

/-- A queue was created below another exactly if its name says so. -/
theorem above_iff (hp : p < t.forest.nodes.size) (hq : q < t.forest.nodes.size) :
    t.forest.Above p q ↔ Path.IsAbove (t.forest.node p).name (t.forest.node q).name := by
  constructor
  · intro above
    induction above with
    | parent h => exact Path.isAbove_of_parent? (orderly.parent?_name hq h)
    | further h above ih =>
      exact (ih above.lt_size).trans (Path.isAbove_of_parent? (orderly.parent?_name hq h))
  · -- Up from the lower queue, from parent to parent, to the one that bears the upper name.
    intro named
    induction q using Nat.strong_induction_on with
    | h q ih =>
      cases hr : (t.forest.node q).parent with
      | none =>
        rw [orderly.rooted hq hr, orderly.name_root] at named
        exact absurd named Path.not_isAbove_root
      | some r =>
        have older : r < q := orderly.linked.older hr
        have known : r < t.forest.nodes.size := older.trans hq
        have upper : (t.forest.node p).name ∈ Path.ancestors (t.forest.node r).name := by
          rw [← Path.mem_tail_ancestors, Path.ancestors_eq, orderly.parent?_name hq hr] at named
          exact named
        rcases Path.mem_ancestors.1 upper with same | further
        · rw [orderly.distinct hp known same]
          exact .parent hr
        · exact .further hr (ih r older known further)

theorem mem_queues_iff (hp : p < t.forest.nodes.size) (hq : q < t.forest.nodes.size) :
    p ∈ t.forest.queues q ↔ (t.forest.node q).name ∈ Path.ancestors (t.forest.node p).name := by
  rw [orderly.linked.mem_queues hq, orderly.above_iff hq hp, Path.mem_ancestors]
  -- No two queues have the same name.
  refine or_congr_left ⟨fun same => by rw [same], fun same => ?_⟩
  exact (orderly.distinct hq hp same).symm

end QueueTree.Orderly

namespace Forest

/-- The queues below a queue are those below its children, one child after the other. -/
theorem IsTree.queues_eq {f : Forest} {q : QueueId} (tree : f.IsTree q) :
    f.queues q = q :: (f.node q).children.flatMap f.queues := by
  rw [queues_eq_ids, tree.shape_eq, Shape.ids_node, List.flatMap_map]
  congr 1
  exact List.flatMap_congr fun c _ => (f.queues_eq_ids c).symm

theorem operations_subset {f : Forest} {user : String} {p q : QueueId}
    (h : (f.node p).name ∈ Path.ancestors (f.node q).name) :
    (f.permission user p).operations ⊆ (f.permission user q).operations := by
  intro operation hop
  rw [permission, List.mem_filter] at hop ⊢
  refine ⟨hop.1, ?_⟩
  rcases Path.mem_ancestors.1 h with same | above
  · rw [← same]
    exact hop.2
  · exact Allocation.hasAccess_of_isAbove above hop.2

/-- A report on permissions below a queue has one entry for each queue whose name is that of the
queue or lies below it, in depth-first order, and entries grow on the way down. -/
structure Reports (f : Forest) (user : String) (q : QueueId) : Prop where
  entries : f.permissions user q = (f.queues q).map (f.permission user)
  /-- The own entry is followed by the reports of the children, in the order of the children. -/
  order : f.permissions user q =
    f.permission user q :: (f.node q).children.flatMap (f.permissions user)
  once : (f.queues q).Nodup
  below : ∀ p < f.nodes.size,
    p ∈ f.queues q ↔ (f.node p).name = (f.node q).name ∨
      Path.IsAbove (f.node q).name (f.node p).name
  grows : ∀ p ∈ f.queues q, ∀ r ∈ f.queues p,
    (f.permission user p).operations ⊆ (f.permission user r).operations

end Forest

theorem QueueTree.Orderly.reports {t : QueueTree} (orderly : t.Orderly) (user : String)
    {q : QueueId} (hq : q < t.forest.nodes.size) : t.forest.Reports user q := by
  have tree : t.forest.IsTree q := orderly.linked.isTree hq
  refine
    { entries := rfl
      order := ?order
      once := tree.distinct
      below := fun p hp => ?below
      grows := fun p hp r hr => ?grows }
  case order =>
    rw [Forest.permissions, tree.queues_eq, List.map_cons, List.map_flatMap]
    rfl
  case below =>
    rw [orderly.mem_queues_iff hp hq, Path.mem_ancestors]
    exact or_congr_left eq_comm
  case grows =>
    have known : p < t.forest.nodes.size := tree.known p hp
    have known' : r < t.forest.nodes.size := (orderly.linked.isTree known).known r hr
    exact Forest.operations_subset ((orderly.mem_queues_iff known' known).1 hr)

namespace System

/-- Access to a queue is access to every path that goes on from it.  So in a tree that was built,
whatever allocation was put in force since, a report on permissions has one entry for each queue
below a queue, and no operation is lost from an entry to the entry of a queue further down. -/
theorem access_grows :
    (∀ (a : Allocation) (queue rest : String) (operation : Operation) (user : String),
        a.hasAccess queue operation user = true →
          a.hasAccess (queue ++ "." ++ rest) operation user = true) ∧
      ∀ (factory : QueueTree.PolicyFactory) (a : Allocation) (asked : List String)
        (t : QueueTree), QueueTree.buildWith factory a = (asked, .ok t) →
        ∀ events : List Event, (∀ e ∈ events, e.rearranges = false) →
          ∀ (inForce : Allocation) (user : String),
            let f : Forest := { (run { tree := t } events).forest with allocation := inForce }
            ∀ q < f.nodes.size, f.Reports user q := by
  refine ⟨fun a queue rest operation user access => ?_, ?_⟩
  · exact Allocation.hasAccess_of_isAbove (Path.isAbove_append queue rest) access
  · intro factory a asked t built events stays inForce user f q hq
    let t' : QueueTree := (run { tree := t } events).tree
    have orderly : t'.Orderly :=
      orderly_run (s := { tree := t }) (QueueTree.grown_of_build built).toOrderly stays
    -- Child lists and names do not depend on the allocation.
    have same : ({ t' with forest := f } : QueueTree).Orderly :=
      orderly.of_akin (Forest.Akin.of_nodes rfl) rfl rfl rfl
    exact same.reports user hq

/-- One queue permits one operation to a user, and the queue below it the other one. -/
def stepwise : Allocation :=
  { queues := Table.ofList
      [("root", { submitters := some [], administrators := some ["eve"] }),
        ("root.a", { administrators := some ["ann"] }),
        ("root.a.b", { submitters := some [everyone] })] }

/-- A queue that grows another leaf. -/
def oneMore : List Event := [.createLeaf "root.a.c" .nameDesc]

/-- A tree is built, gets a leaf more and is then put under the allocation. -/
theorem access_grows_stepwise :
    ∃ asked t,
      QueueTree.build QueueTree.resolveNamed { queues := Table.ofList [("root.a.b", {})] } =
        (asked, .ok t) ∧
      (∀ e ∈ oneMore, e.rearranges = false) ∧
      let f : Forest := { (run { tree := t } oneMore).forest with allocation := stepwise }
      0 < f.nodes.size ∧
        f.permissions "ann" 0 =
          [⟨"root", []⟩, ⟨"a", [.administerQueue]⟩,
            ⟨"b", [.submitApplications, .administerQueue]⟩, ⟨"c", [.administerQueue]⟩] ∧
        f.Reports "ann" 0 ∧
        stepwise.hasAccess "root.a" .administerQueue "ann" = true ∧
        stepwise.hasAccess ("root.a" ++ "." ++ "b.") .administerQueue "ann" = true := by
  have facts : ∀ t ∈ (QueueTree.build QueueTree.resolveNamed
        { queues := Table.ofList [("root.a.b", {})] }).2.toOption,
      let f : Forest := { (run { tree := t } oneMore).forest with allocation := stepwise }
      0 < f.nodes.size ∧ f.permissions "ann" 0 =
        [⟨"root", []⟩, ⟨"a", [.administerQueue]⟩,
          ⟨"b", [.submitApplications, .administerQueue]⟩, ⟨"c", [.administerQueue]⟩] := by
    decide +kernel
  obtain ⟨asked, t, built, known, entries⟩ := QueueTree.exists_built (by decide +kernel) facts
  have stays : ∀ e ∈ oneMore, e.rearranges = false := by decide
  have access : stepwise.hasAccess "root.a" .administerQueue "ann" = true := by decide +kernel
  refine ⟨asked, t, built, stays, known, entries, ?_, access, ?_⟩
  · exact access_grows.2 _ _ asked t built oneMore stays stepwise "ann" 0 known
  · exact access_grows.1 stepwise "root.a" "b." .administerQueue "ann" access

end System
end FairShare
