import Mathlib.Data.List.Forall2
import FairShare.Proofs.Built
import FairShare.Proofs.Path
import FairShare.Tree.Build

/-!
The plan of a tree.  A queue is planned for the root, for every configured queue and for every path
above one.  In the order of names the root comes first and every queue follows the queue at its
parent path, which is planned as a composite queue.  The policy that is asked for a queue is the one
named for it, else the default policy, else the fair one.
-/

namespace FairShare
namespace Table

variable {α : Type}

theorem mem_names {t : Table α} {name : String} : name ∈ t.names ↔ ∃ v, t.get? name = some v := by
  rw [names, List.mem_map]
  constructor
  · rintro ⟨⟨k, v⟩, h, rfl⟩
    exact ⟨v, get?_eq_some_iff.2 h⟩
  · rintro ⟨v, h⟩
    exact ⟨_, get?_eq_some_iff.1 h, rfl⟩

theorem ascending_names (t : Table α) : t.names.Pairwise (· < ·) :=
  List.pairwise_map.2 t.ascending

theorem mem_names_tabulate {l : List String} {name : String} :
    name ∈ (tabulate (fun _ => some ()) l).names ↔ name ∈ l := by
  rw [mem_names]
  constructor
  · rintro ⟨v, h⟩
    rw [get?_tabulate] at h
    by_contra absent
    simp [absent] at h
  · intro h
    exact ⟨(), by rw [get?_tabulate, if_pos h]⟩

end Table

namespace Allocation

variable {a : Allocation} {name queue : String}

/-- Whether a name gets a queue: it is the root, is configured or lies above a configured name. -/
def HasQueue (a : Allocation) (name : String) : Prop :=
  name = Path.root ∨ ∃ queue ∈ a.queues.names, name = queue ∨ Path.IsAbove name queue

/-- Whether a name gets a composite queue: it is the root, lies above a configured name, or is
configured as a parent. -/
def HasParent (a : Allocation) (name : String) : Prop :=
  name = Path.root ∨ (∃ queue ∈ a.queues.names, Path.IsAbove name queue) ∨
    ∃ s, a.settings? name = some s ∧ s.parent = true

/-- The policy that an allocation names for a queue: that of the queue's own settings, else the
default policy, else the fair one. -/
inductive NamesPolicy (a : Allocation) (name : String) : String → Prop
  | own {s : QueueSettings} {policy : String} (configured : a.queues.get? name = some s)
      (named : s.policy = some policy) : NamesPolicy a name policy
  | byDefault {policy : String} (unnamed : ∀ s, a.queues.get? name = some s → s.policy = none)
      (named : a.defaultPolicy = some policy) : NamesPolicy a name policy
  | fair (unnamed : ∀ s, a.queues.get? name = some s → s.policy = none)
      (noDefault : a.defaultPolicy = none) : NamesPolicy a name "fair"

theorem HasParent.hasQueue (h : a.HasParent name) : a.HasQueue name := by
  rcases h with h | ⟨queue, hq, h⟩ | ⟨s, hs, -⟩
  · exact .inl h
  · exact .inr ⟨queue, hq, .inr h⟩
  · exact .inr ⟨name, Table.mem_names.2 ⟨s, hs⟩, .inl rfl⟩

theorem path_check (checked : a.check = .ok ()) (hq : queue ∈ a.queues.names) :
    Path.check queue = .ok () := by
  obtain ⟨s, hs⟩ := Table.mem_names.1 hq
  rw [check] at checked
  obtain ⟨-, checked⟩ := ok_of_unless checked
  have each := ok_of_forM checked (Table.get?_eq_some_iff.1 hs)
  cases hname : Path.check queue with
  | error e =>
    simp only [hname] at each
    cases each
  | ok u => rfl

theorem HasQueue.root_or_below (h : a.HasQueue name) (checked : a.check = .ok ()) :
    name = Path.root ∨ Path.IsAbove Path.root name := by
  rcases h with h | ⟨queue, hq, h⟩
  · exact .inl h
  · have legal := Path.isAbove_root_of_check (path_check checked hq)
    rcases h with rfl | above
    · exact legal
    · rcases legal with rfl | below
      · exact absurd above Path.not_isAbove_root
      · exact above.root_or_below below

end Allocation

namespace QueueTree

variable {a : Allocation} {name : String}

theorem mem_plannedNames : name ∈ plannedNames a ↔ a.HasQueue name := by
  simp only [plannedNames, Table.mem_names_tabulate, List.mem_cons, List.mem_flatMap,
    Path.mem_ancestors, Allocation.HasQueue]

theorem plannedComposite_iff : plannedComposite a name = true ↔ a.HasParent name := by
  simp only [plannedComposite, Bool.or_eq_true, decide_eq_true_eq, List.any_eq_true, Prod.exists,
    List.contains_iff_mem, Path.mem_tail_ancestors, Bool.and_eq_true, Allocation.HasParent,
    Table.mem_names, Allocation.settings?]
  refine or_congr_right ⟨?_, ?_⟩
  · rintro ⟨queue, s, entry, above | ⟨parent, rfl⟩⟩
    · exact .inl ⟨queue, ⟨s, Table.get?_eq_some_iff.2 entry⟩, above⟩
    · exact .inr ⟨s, Table.get?_eq_some_iff.2 entry, parent⟩
  · rintro (⟨queue, ⟨s, hs⟩, above⟩ | ⟨s, hs, parent⟩)
    · exact ⟨queue, s, Table.get?_eq_some_iff.1 hs, .inl above⟩
    · exact ⟨name, s, Table.get?_eq_some_iff.1 hs, .inr ⟨parent, rfl⟩⟩

/-- The name that is asked for is the one that the allocation names, and there is only one. -/
theorem namesPolicy_iff {policy : String} :
    a.NamesPolicy name policy ↔ plannedPolicy a name = policy := by
  rw [plannedPolicy, Allocation.policyName?, Allocation.settings?]
  constructor
  · intro h
    cases h with
    | own configured named => rw [configured, Option.bind_some, named]; rfl
    | byDefault unnamed named => rw [Option.bind_eq_none_iff.2 unnamed, named]; rfl
    | fair unnamed noDefault => rw [Option.bind_eq_none_iff.2 unnamed, noDefault]; rfl
  · rintro rfl
    cases own : (a.queues.get? name).bind QueueSettings.policy with
    | some policy =>
      obtain ⟨s, configured, named⟩ := Option.bind_eq_some_iff.1 own
      exact .own configured named
    | none =>
      have unnamed := Option.bind_eq_none_iff.1 own
      cases named : a.defaultPolicy with
      | some policy => exact .byDefault unnamed named
      | none => exact .fair unnamed named

theorem forall₂_namesPolicy {names asked : List String} :
    List.Forall₂ a.NamesPolicy names asked ↔ names.map (plannedPolicy a) = asked := by
  have same : a.NamesPolicy = fun name policy => plannedPolicy a name = policy :=
    funext₂ fun _ _ => propext namesPolicy_iff
  rw [same, ← List.forall₂_eq_eq_eq, List.forall₂_map_left_iff]

theorem ascending_plannedNames (a : Allocation) : (plannedNames a).Pairwise (· < ·) :=
  Table.ascending_names _

/-- The root comes first. -/
theorem plannedNames_eq (checked : a.check = .ok ()) :
    plannedNames a = Path.root :: (plannedNames a).filter (· ≠ Path.root) := by
  have ascending := ascending_plannedNames a
  have root : Path.root ∈ plannedNames a := mem_plannedNames.2 (.inl rfl)
  have least : ∀ name ∈ plannedNames a, name = Path.root ∨ Path.root < name := fun name h =>
    ((mem_plannedNames.1 h).root_or_below checked).imp_right Path.IsAbove.lt
  generalize plannedNames a = l at ascending root least
  cases l with
  | nil => cases root
  | cons first rest =>
    obtain ⟨hfirst, -⟩ := List.pairwise_cons.1 ascending
    obtain rfl : first = Path.root := by
      rcases List.mem_cons.1 root with h | h
      · exact h.symm
      · exact (least first (by simp)).resolve_right (String.lt_asymm (hfirst _ h))
    have others : ∀ name ∈ rest, decide (name ≠ Path.root) = true := by
      intro name h
      simpa using fun e : name = Path.root => String.lt_irrefl _ (e ▸ hfirst name h)
    rw [List.filter_cons_of_neg (by simp), List.filter_eq_self.2 others]

/-- The queue at the parent path of a planned one is planned, and as a composite queue. -/
theorem exists_planned_parent (checked : a.check = .ok ()) (h : a.HasQueue name)
    (other : name ≠ Path.root) :
    ∃ parent, Path.parent? name = some parent ∧ a.HasQueue parent ∧ a.HasParent parent := by
  have below := (h.root_or_below checked).resolve_left other
  obtain ⟨parent, hp⟩ := Path.exists_parent? below
  have above := Path.isAbove_of_parent? hp
  obtain ⟨queue, hq, h⟩ := h.resolve_left other
  have configured : Path.IsAbove parent queue := by
    rcases h with rfl | h
    · exact above
    · exact above.trans h
  exact ⟨parent, hp, .inr ⟨queue, hq, .inr configured⟩, .inr (.inl ⟨queue, hq, configured⟩)⟩

end QueueTree
end FairShare
