import Mathlib.Data.List.Forall2
import FairShare.Proofs.Usage

/-!
Granting requests.  A grant in a leaf takes the first request of the first application whose first
request fits; it becomes a container under the next sequence number of the application.
-/

namespace FairShare
namespace App

theorem offerable_eq_some {a : App} {available request : Resource} :
    a.offerable available = some request ↔
      ∃ rest, a.pending = request :: rest ∧ request.fitsIn available = true := by
  unfold offerable
  constructor
  · intro h
    split at h
    · cases h
    · next r rest hp =>
      split at h
      · next fits => exact ⟨rest, by simpa [hp] using h, by simp_all⟩
      · cases h
  · rintro ⟨rest, hp, fits⟩
    simp [hp, fits]

/-- An application after its first `k` requests became containers. -/
def served (k : Nat) (a : App) : App :=
  { a with
    pending := a.pending.drop k
    running := a.running ++
      (a.pending.take k).mapIdx fun i request => ⟨⟨a.attempt, a.nextSequence + i⟩, request⟩
    nextSequence := a.nextSequence + k }

@[simp] theorem served_zero (a : App) : a.served 0 = a := by simp [served]

theorem served_served {a : App} {k l : Nat} (hk : k ≤ a.pending.length) :
    (a.served k).served l = a.served (k + l) := by
  simp [served, List.take_add, List.mapIdx_append, List.length_take, Nat.min_eq_left hk,
    Nat.add_comm, Nat.add_left_comm]

theorem granted_eq_served {a : App} {request : Resource} {rest : List Resource}
    (h : a.pending = request :: rest) : a.granted request = a.served 1 := by
  simp [granted, served, h]

theorem length_pending_served (a : App) (k : Nat) :
    (a.served k).pending.length = a.pending.length - k := List.length_drop

end App

namespace Leaf

theorem grantFirst_eq_some {available request : Resource} {l m : List App}
    (h : grantFirst available l = some (request, m)) :
    ∃ before a after, l = before ++ a :: after ∧ (∀ b ∈ before, b.offerable available = none) ∧
      a.offerable available = some request ∧ m = before ++ a.granted request :: after := by
  induction l generalizing m with
  | nil => cases h
  | cons a rest ih =>
    rw [grantFirst] at h
    cases ha : a.offerable available with
    | some r =>
      simp only [ha, Option.some.injEq, Prod.mk.injEq] at h
      obtain ⟨rfl, rfl⟩ := h
      exact ⟨[], a, rest, rfl, by simp, ha, rfl⟩
    | none =>
      simp only [ha, Option.map_eq_some_iff, Prod.mk.injEq, Prod.exists] at h
      obtain ⟨r, m, hm, rfl, rfl⟩ := h
      obtain ⟨before, b, after, rfl, hbefore, hb, rfl⟩ := ih hm
      refine ⟨a :: before, b, after, rfl, ?_, hb, rfl⟩
      exact List.forall_mem_cons.2 ⟨ha, hbefore⟩

theorem findSome?_offerable (available : Resource) (l : List App) :
    l.findSome? (fun a => a.offerable available) = (grantFirst available l).map Prod.fst := by
  induction l with
  | nil => rfl
  | cons a rest ih =>
    rw [grantFirst, List.findSome?_cons, ih]
    cases a.offerable available with
    | some r => rfl
    | none => simp [Function.comp_def]

end Leaf

namespace Node

/-- The request that a queue itself would grant. -/
def offerable (available : Resource) (n : Node) : Option Resource :=
  n.apps.findSome? fun a => a.offerable available

/-- A queue after it granted a request, if it has one that fits. -/
def grant (available : Resource) (n : Node) : Node :=
  n.mapLeaf fun l => ((l.grant? available).map Prod.snd).getD l

section

variable (available : Resource) (n : Node)

@[simp] theorem grant_name : (n.grant available).name = n.name := mapLeaf_name _ n

@[simp] theorem grant_isScripted : (n.grant available).isScripted = n.isScripted :=
  mapLeaf_isScripted _ n

@[simp] theorem grant_children : (n.grant available).children = n.children := mapLeaf_children _ n

end

theorem body_of_offerable {available request : Resource} {n : Node}
    (h : n.offerable available = some request) : ∃ l, n.body = .leaf l := by
  cases hb : n.body with
  | composite c => simp [offerable, apps, hb] at h
  | leaf l => exact ⟨l, rfl⟩
  | scripted s => simp [offerable, apps, hb] at h

theorem offerable_of_leaf {n : Node} {l : Leaf} (h : n.body = .leaf l) (available : Resource) :
    n.offerable available = (l.grant? available).map Prod.fst := by
  rw [offerable, apps_of_leaf h, Leaf.findSome?_offerable, Leaf.grant?, Option.map_map]
  rfl

theorem grant_of_leaf {available request : Resource} {n : Node} {l m : Leaf} (h : n.body = .leaf l)
    (hm : l.grant? available = some (request, m)) : n.grant available = n.mapLeaf fun _ => m := by
  rw [grant, mapLeaf, mapLeaf, h]
  simp only [hm, Option.map_some, Option.getD_some]

/-- Where nobody asks for nothing, nothing is not offered. -/
theorem offerable_ne_zero {n : Node} (asks : ∀ a ∈ n.apps, .zero ∉ a.pending)
    (available : Resource) : n.offerable available ≠ some .zero := by
  intro found
  obtain ⟨a, ha, found⟩ := List.exists_of_findSome?_eq_some found
  obtain ⟨rest, waits, -⟩ := App.offerable_eq_some.1 found
  exact asks a ha (waits ▸ List.mem_cons_self)

/-- A queue that grants is a leaf with an application to grant to. -/
theorem grant_of_offerable {available request : Resource} {n : Node}
    (h : n.offerable available = some request) :
    ∃ l before a rest after, n.body = .leaf l ∧ l.apps = before ++ a :: after ∧
      (∀ b ∈ before, b.offerable available = none) ∧ a.pending = request :: rest ∧
      request.fitsIn available = true ∧
      n.grant available =
        { n with body := .leaf { l with apps := before ++ a.served 1 :: after } } := by
  obtain ⟨l, hb⟩ := body_of_offerable h
  rw [offerable, apps_of_leaf hb, Leaf.findSome?_offerable, Option.map_eq_some_iff] at h
  obtain ⟨⟨r, m⟩, hm, rfl⟩ := h
  obtain ⟨before, a, after, happs, hbefore, ha, rfl⟩ := Leaf.grantFirst_eq_some hm
  obtain ⟨rest, hp, fits⟩ := App.offerable_eq_some.1 ha
  refine ⟨l, before, a, rest, after, hb, happs, hbefore, hp, fits, ?_⟩
  simp [grant, mapLeaf, hb, Leaf.grant?, hm, App.granted_eq_served hp]

theorem running_grant {available request : Resource} {n : Node}
    (h : n.offerable available = some request) :
    ∃ id, (n.grant available).running.Perm (⟨id, request⟩ :: n.running) := by
  obtain ⟨l, before, a, rest, after, hb, happs, -, hp, -, hg⟩ := grant_of_offerable h
  refine ⟨⟨a.attempt, a.nextSequence⟩, ?_⟩
  have hrun : (a.served 1).running = a.running ++ [⟨⟨a.attempt, a.nextSequence⟩, request⟩] := by
    simp [App.served, hp]
  rw [running, running, hg, apps_of_leaf hb, apps_of_leaf rfl, happs, List.flatMap_append,
    List.flatMap_append, List.flatMap_cons, List.flatMap_cons, hrun]
  simp only [List.append_assoc, List.singleton_append]
  -- The new container moves to the front past its application and the ones before.
  exact (List.perm_middle.append_left _).trans List.perm_middle

end Node

namespace Forest

/-- Grants a request of a queue, if it has one that fits. -/
def grant (f : Forest) (available : Resource) (q : QueueId) : Forest :=
  f.update q (Node.grant available)

section

variable {f : Forest} {available request : Resource} {q : QueueId}

theorem lt_size_of_offerable (h : (f.node q).offerable available = some request) :
    q < f.nodes.size := by
  by_contra hq
  rw [node_of_size_le (Nat.not_lt.1 hq)] at h
  cases h

theorem node_grant_of_ne {p : QueueId} (h : p ≠ q) : (f.grant available q).node p = f.node p :=
  node_update_of_ne f _ h

theorem node_grant_self (h : (f.node q).offerable available = some request) :
    (f.grant available q).node q = (f.node q).grant available :=
  node_update_self f _ (lt_size_of_offerable h)

theorem alike_grant (f : Forest) (available : Resource) (q : QueueId) :
    Alike f (f.grant available q) :=
  .update f q (Node.grant_name available) (Node.grant_isScripted available)
    (.of_eq (Node.grant_children available _))

theorem containersIn_grant_of_not_mem {l : List QueueId} (h : q ∉ l) :
    (f.grant available q).containersIn l = f.containersIn l :=
  containersIn_congr fun p hp => by rw [node_grant_of_ne (ne_of_mem_of_not_mem hp h)]

/-- A grant adds the container of the granted request to those that run. -/
theorem containersIn_grant {l : List QueueId} (distinct : l.Nodup) (hq : q ∈ l)
    (found : (f.node q).offerable available = some request) :
    ∃ id, ((f.grant available q).containersIn l).Perm (⟨id, request⟩ :: f.containersIn l) := by
  obtain ⟨id, hrun⟩ := Node.running_grant found
  refine ⟨id, ?_⟩
  obtain ⟨front, back, rfl⟩ := List.append_of_mem hq
  have hfront : q ∉ front := fun h => (List.nodup_append.1 distinct).2.2 q h q (by simp) rfl
  have hback : q ∉ back := (List.nodup_cons.1 (List.nodup_append.1 distinct).2.1).1
  have split (g : Forest) : g.containersIn (front ++ q :: back) =
      g.containersIn front ++ ((g.node q).running ++ g.containersIn back) := by
    simp [containersIn, List.flatMap_append]
  rw [split, split, containersIn_grant_of_not_mem hfront, containersIn_grant_of_not_mem hback,
    node_grant_self found]
  calc
    List.Perm _ (f.containersIn front ++
        (⟨id, request⟩ :: (f.node q).running ++ f.containersIn back)) :=
      (hrun.append_right _).append_left _
    List.Perm _ (⟨id, request⟩ :: (f.containersIn front ++
        ((f.node q).running ++ f.containersIn back))) := List.perm_middle

theorem containers_grant {root : QueueId} (tree : f.IsTree root) (hq : q ∈ f.queues root)
    (found : (f.node q).offerable available = some request) :
    ∃ id, ((f.grant available q).containers root).Perm (⟨id, request⟩ :: f.containers root) := by
  obtain ⟨id, hrun⟩ := containersIn_grant tree.distinct hq found
  exact ⟨id, ((alike_grant f available q).containers root).trans hrun⟩

/-- A grant of nothing leaves the usages as they are. -/
theorem usageBelow_grant_zero {s : Shape} (carried : f.Carries s)
    (found : (f.node q).offerable available = some .zero) :
    (f.grant available q).usageBelow s = f.usageBelow s := by
  rw [usageBelow_eq_usageOf carried,
    usageBelow_eq_usageOf ((alike_grant f available q).carries carried)]
  by_cases hq : q ∈ s.ids
  · obtain ⟨id, hrun⟩ := containersIn_grant carried.distinct hq found
    rw [usageOf_perm hrun]
    apply Resource.ext_get
    intro d
    rw [usageOf, usageOf, Resource.get_sum, Resource.get_sum, List.map_cons, Resource.exact_cons,
      Resource.get_zero, Nat.zero_add]
  · rw [containersIn_grant_of_not_mem hq]

end

end Forest
end FairShare
