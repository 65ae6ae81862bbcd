import FairShare.Proofs.Overshoot

/-!
Trees that were built.  A tree is built from an allocation that passed its check, and keeps that
allocation whatever regular operations are performed on it.  So no queue of it is guaranteed more
than it may use.
-/

namespace FairShare

/-- A check that did not throw holds, and what follows it was done. -/
theorem ok_of_unless {ε α β : Type} {c : Prop} [Decidable c] {fault : ε} {next : Except ε α}
    {k : β → Except ε α} {r : α} (h : (if c then next else throw fault >>= k) = .ok r) :
    c ∧ next = .ok r := by
  split at h
  · next hc => exact ⟨hc, h⟩
  · cases h

theorem ok_of_forM {ε α : Type} {check : α → Except ε Unit} {l : List α}
    (h : l.forM check = .ok ()) {x : α} (hx : x ∈ l) : check x = .ok () := by
  induction l with
  | nil => cases hx
  | cons y rest ih =>
    rw [List.forM] at h
    cases first : check y with
    | error e =>
      rw [first] at h
      cases h
    | ok u =>
      rw [first] at h
      rcases List.mem_cons.1 hx with rfl | hx
      · exact first
      · exact ih h hx

theorem QueueSettings.fitsUnder_of_check {s : QueueSettings} (checked : s.check = .ok ())
    {least most : Resource} (hleast : s.minResources = some least)
    (hmost : s.maxResources = some most) : least.fitsUnder most = true := by
  rw [check, hleast, hmost] at checked
  obtain ⟨-, checked⟩ := ok_of_unless checked
  cases hthreshold : s.threshold with
  | none =>
    rw [hthreshold] at checked
    by_contra exceeds
    simp [exceeds] at checked
  | some t =>
    rw [hthreshold] at checked
    obtain ⟨-, checked⟩ := ok_of_unless checked
    by_contra exceeds
    simp [exceeds] at checked

namespace Allocation

variable {a : Allocation}

theorem settings_check (checked : a.check = .ok ()) {queue : String} {s : QueueSettings}
    (hs : a.settings? queue = some s) : s.check = .ok () := by
  have entry : (queue, s) ∈ a.queues.entries := Table.get?_eq_some_iff.1 hs
  rw [check] at checked
  obtain ⟨-, checked⟩ := ok_of_unless checked
  have each := ok_of_forM checked entry
  cases hname : Path.check queue with
  | error e =>
    simp only [hname] at each
    cases each
  | ok u =>
    cases hsettings : s.check with
    | error e =>
      simp only [hname, hsettings] at each
      cases each
    | ok u => rfl

/-- A queue is not guaranteed more than it may use. -/
theorem minResources_fitsUnder (checked : a.check = .ok ()) (queue : String) :
    ∀ most ∈ a.maxResources queue, (a.minResources queue).fitsUnder most = true := by
  intro most hmost
  obtain ⟨s, hs, hmost⟩ := Option.bind_eq_some_iff.1 hmost
  rw [minResources, hs, Option.bind_some]
  cases hleast : s.minResources with
  | none => exact Resource.zero_fitsUnder most
  | some least => exact QueueSettings.fitsUnder_of_check (settings_check checked hs) hleast hmost

end Allocation

theorem Forest.Creates.allocation {f g : Forest} (created : Creates f g) :
    g.allocation = f.allocation := by
  rcases created with kept | ⟨h, n, p, kept, -, -, -, rfl⟩
  · exact kept.allocation
  · exact kept.allocation

namespace QueueTree

/-- A tree is built from an allocation that passed its check. -/
theorem build_allocation {factory : PolicyFactory} {a : Allocation} {asked : List String}
    {t : QueueTree} (built : buildWith factory a = (asked, .ok t)) :
    a.check = .ok () ∧ t.forest.allocation = a := by
  obtain ⟨checked, policy, later, -, built⟩ := exists_root_of_build built
  refine ⟨checked, ?_⟩
  apply addPlanned_preserves (P := fun t => t.forest.allocation = a) _ built rfl
  intro t t' created _ same
  exact created.allocation.trans same

theorem capped_of_build {resolve : String → Except TreeError Policy} {a : Allocation}
    {asked : List String} {t : QueueTree} (built : build resolve a = (asked, .ok t)) :
    t.forest.Capped t.root := by
  apply build_induction (P := fun t => t.forest.Capped t.root) _ _ built
  · exact fun t bare => bare.capped
  · intro t t' created root capped
    rw [root]
    exact capped.creates created

/-- A build that gives a tree, with what holds of the tree. -/
theorem exists_built {resolve : String → Except TreeError Policy} {a : Allocation}
    {P : QueueTree → Prop} (succeeds : (build resolve a).2.toOption.isSome = true)
    (holds : ∀ t ∈ (build resolve a).2.toOption, P t) :
    ∃ asked t, build resolve a = (asked, .ok t) ∧ P t := by
  cases built : build resolve a with
  | mk asked outcome =>
    rw [built] at succeeds holds
    cases outcome with
    | error e => cases succeeds
    | ok t => exact ⟨asked, t, rfl, holds t rfl⟩

end QueueTree

namespace System

theorem allocation_perform {s : System} {root : QueueId} (hroot : s.tree.root = root)
    (tree : s.forest.IsTree root) {e : Event} (regular : e.isRegular root = true) :
    (s.perform e).forest.allocation = s.forest.allocation := by
  subst hroot
  cases pass : e.isPass with
  | true =>
    have served : Forest.Serves s.forest (s.perform e).forest := by
      apply pass_preserves_of_keeps (P := Forest.Serves s.forest) pass
      case kept =>
        intro f g kept served
        exact served.trans kept.serves
      case assigned =>
        intro f q machine at_root served
        obtain rfl : q = s.tree.root := by
          rcases at_root with rfl | rfl
          · rfl
          · exact of_decide_eq_true regular
        exact served.trans (Forest.assign_accounts (served.toAlike.isTree tree) machine).1
      case holds => exact .refl _
    exact served.allocation
  | false =>
    cases e with
    | submit q attempt user => exact (sheds_perform rfl).allocation
    | request q attempt request => exact (sheds_perform rfl).allocation
    | finish q attempt => exact (sheds_perform rfl).allocation
    | release q container => exact (sheds_perform rfl).allocation
    | createLeaf name policy => exact (s.tree.createLeaf_creates name policy).1.allocation
    | reload allocation => cases regular
    | attach parent child => cases regular
    | detach parent name => cases regular
    | _ => cases pass

/-- After regular operations a tree that was built is a tree with the allocation it was built from.
-/
theorem built_run {resolve : String → Except TreeError Policy} {a : Allocation}
    {asked : List String} {t : QueueTree} (built : QueueTree.build resolve a = (asked, .ok t))
    {events : List Event} (regular : ∀ e ∈ events, e.isRegular t.root = true) :
    (run { tree := t } events).forest.IsTree t.root ∧
      (run { tree := t } events).forest.allocation = a := by
  have kept : ((run { tree := t } events).forest.Capped t.root ∧
      (run { tree := t } events).tree.root = t.root) ∧
      (run { tree := t } events).forest.allocation = a := by
    -- Assignments and cycles need the tree, so it is carried along the run with the allocation.
    apply run_preserves
      (P := fun s => (s.forest.Capped t.root ∧ s.tree.root = t.root) ∧ s.forest.allocation = a) _
      regular
    · exact ⟨⟨QueueTree.capped_of_build built, rfl⟩, (QueueTree.build_allocation built).2⟩
    · rintro s e ok ⟨⟨capped, root⟩, same⟩
      exact ⟨capped_perform root ok capped, (allocation_perform root capped.tree ok).trans same⟩
  exact ⟨kept.1.1.tree, kept.2⟩

end System
end FairShare
