import FairShare.Proofs.Lineage
import FairShare.Proofs.Shedding
import FairShare.Proofs.System

/-!
The roster of a forest: under whom each queue was created, which attempts it holds and how many
applications it counts.  Passes, offers, requests and releases leave the roster as it is, and so do
attaching and detaching, whatever the child lists look like.
-/

namespace FairShare

/-- An application as it was submitted. -/
def App.entry (a : App) : App := { attempt := a.attempt, user := a.user }

namespace Leaf

variable {l m : Leaf}

theorem entry_request {attempt : AttemptId} {request : Resource}
    (h : l.request? attempt request = some m) : m.apps.map App.entry = l.apps.map App.entry := by
  obtain ⟨before, a, after, held, -, holds⟩ := request?_eq_some h
  rw [held, holds, List.map_append, List.map_append, List.map_cons, List.map_cons]
  rfl

theorem entry_release {container : ContainerId} (h : l.release? container = some m) :
    m.apps.map App.entry = l.apps.map App.entry := by
  obtain ⟨before, a, after, held, -, holds⟩ := release?_eq_some h
  rw [held, holds, List.map_append, List.map_append, List.map_cons, List.map_cons]
  rfl

theorem entry_grant {available request : Resource} (h : l.grant? available = some (request, m)) :
    m.apps.map App.entry = l.apps.map App.entry := by
  obtain ⟨⟨r, apps⟩, happs, e⟩ := Option.map_eq_some_iff.1 h
  cases e
  obtain ⟨before, a, after, hl, -, -, rfl⟩ := grantFirst_eq_some happs
  rw [hl, List.map_append, List.map_append, List.map_cons, List.map_cons]
  rfl

end Leaf

namespace Node

/-- Under whom a queue was created, which attempts it holds and how many applications it counts. -/
def roster (n : Node) : Node where
  name := n.name
  parent := n.parent
  policy := default
  sink := 0
  released := n.released
  body :=
    match n.body with
    | .composite c => .composite { runnable := c.runnable }
    | .leaf l => .leaf { apps := l.apps.map App.entry }
    | .scripted _ => .scripted {}

section

variable (n : Node)

@[simp] theorem roster_name : n.roster.name = n.name := rfl

@[simp] theorem roster_parent : n.roster.parent = n.parent := rfl

@[simp] theorem roster_released : n.roster.released = n.released := rfl

@[simp] theorem roster_isComposite : n.roster.isComposite = n.isComposite := by
  cases hb : n.body <;> simp [roster, isComposite, hb]

@[simp] theorem roster_isScripted : n.roster.isScripted = n.isScripted := by
  cases hb : n.body <;> simp [roster, isScripted, hb]

@[simp] theorem roster_runnable : n.roster.runnable = n.runnable := by
  cases hb : n.body <;> simp [roster, runnable, hb]

@[simp] theorem length_apps_roster : n.roster.apps.length = n.apps.length := by
  cases hb : n.body <;> simp [roster, apps, hb]

theorem roster_uncounted : n.uncounted.roster = n.roster := by
  cases hb : n.body <;> simp [roster, uncounted, hb]

theorem roster_mapComposite {k : Composite → Composite} (same : ∀ c, (k c).runnable = c.runnable) :
    (n.mapComposite k).roster = n.roster := by
  cases hb : n.body <;> simp [roster, mapComposite, hb, same]

theorem roster_withChildren (l : List QueueId) : (n.withChildren l).roster = n.roster :=
  n.roster_mapComposite fun _ => rfl

theorem roster_grant (available : Resource) : (n.grant available).roster = n.roster := by
  cases hb : n.body with
  | composite c => simp [grant, mapLeaf, hb]
  | scripted s => simp [grant, mapLeaf, hb]
  | leaf l =>
    cases hg : l.grant? available with
    | none => simp [grant, mapLeaf, roster, hb, hg]
    | some answer =>
      have same := Leaf.entry_grant hg
      simp [grant, mapLeaf, roster, hb, hg, same]

end

theorem roster_mapLeaf {n : Node} {l m : Leaf} (hb : n.body = .leaf l)
    (same : m.apps.map App.entry = l.apps.map App.entry) :
    (n.mapLeaf fun _ => m).roster = n.roster := by
  simp [mapLeaf, roster, hb, same]

end Node

namespace Forest

/-- What is known of the queues of a forest when only their creation and their applications count.
-/
def roster (f : Forest) : Array Node := f.nodes.map Node.roster

section

variable {f g : Forest} {q : QueueId}

theorem size_of_roster (h : g.roster = f.roster) : g.nodes.size = f.nodes.size := by
  simpa [roster] using congrArg Array.size h

theorem field_of_roster {α : Type} (field : Node → α) (unseen : ∀ n, field n.roster = field n)
    (h : g.roster = f.roster) (q : QueueId) : field (g.node q) = field (f.node q) :=
  field_of_view field unseen rfl h q

theorem roster_of_view {view : Node → Node}
    (h : (g.mapNodes view).nodes = (f.mapNodes view).nodes)
    (unseen : ∀ n, (view n).roster = n.roster) : g.roster = f.roster := by
  have through (k : Forest) : (k.mapNodes view).nodes.map Node.roster = k.roster := by
    rw [mapNodes, Array.map_map, roster]
    exact congrArg (k.nodes.map ·) (funext unseen)
  rw [← through, ← through, h]

theorem roster_update {k : Node → Node} (unseen : (k (f.node q)).roster = (f.node q).roster) :
    (f.update q k).roster = f.roster := by
  apply Array.ext
  · simp [roster]
  · intro i _ hi
    have known : i < f.nodes.size := by simpa [roster] using hi
    simp only [roster, update, Array.getElem_map, Array.getElem_modify]
    split
    · next hq =>
      subst hq
      simpa [node, Array.getD_eq_getD_getElem?, known] using unseen
    · rfl

theorem roster_attach (f : Forest) (p q : QueueId) : (f.attach p q).roster = f.roster :=
  roster_update ((f.node p).roster_mapComposite fun _ => rfl)

theorem roster_detach {p : QueueId} {name : String} (h : f.detach? p name = some g) :
    g.roster = f.roster := by
  rw [detach?] at h
  split at h
  · cases h
    exact roster_update ((f.node p).roster_mapComposite fun _ => rfl)
  · cases h

theorem roster_updateDemand (f : Forest) (q : QueueId) : (f.updateDemand q).roster = f.roster :=
  roster_of_view (congrArg Forest.nodes (uncounted_countDemand _ f)) Node.roster_uncounted

theorem roster_distribute (kind : ShareKind) (f : Forest) (root : QueueId) (capacity : Resource) :
    (f.distribute kind root capacity).roster = f.roster :=
  roster_of_view (nodes_of_unshared (unshared_distribute kind f root capacity)) fun _ => rfl

theorem roster_tick (f : Forest) (root : QueueId) (capacity : Resource) (now : Nat) :
    (f.tick root capacity now).roster = f.roster := by
  have paced := unpaced_paceBelow now
    (((f.updateDemand root).distribute .fair root capacity).shape root)
    ((f.updateDemand root).distribute .fair root capacity)
  calc
    (f.tick root capacity now).roster =
        ((f.updateDemand root).distribute .fair root capacity).roster :=
      roster_of_view (congrArg Forest.nodes paced) fun _ => rfl
    _ = (f.updateDemand root).roster := roster_distribute .fair _ root capacity
    _ = f.roster := roster_updateDemand f root

/-- An offer changes what applications wait for and run, and nothing of the roster. -/
theorem roster_offer (machine : Machine) (s : Shape) (f : Forest) :
    (offer machine s f).1.roster = f.roster := by
  apply offer_preserves (P := fun g => g.roster = f.roster)
  case reordered =>
    intro g q l hg
    exact (roster_update ((g.node q).roster_withChildren l)).trans hg
  case served =>
    intro g q request hg _
    exact (roster_update ((g.node q).roster_grant machine.available)).trans hg
  case visited =>
    intro g q k hg
    refine (roster_update ?_).trans hg
    cases hb : (g.node q).body <;> simp [Node.mapScripted, Node.roster, hb]
  case holds => rfl

theorem roster_changeLeaf {change : Leaf → Option Leaf}
    (same : ∀ l m, change l = some m → m.apps.map App.entry = l.apps.map App.entry)
    (h : f.changeLeaf? q change = some g) : g.roster = f.roster := by
  obtain ⟨l, m, hb, hm, rfl⟩ := changeLeaf?_eq_some.1 h
  exact roster_update (Node.roster_mapLeaf hb (same l m hm))

theorem roster_request {attempt : AttemptId} {request : Resource}
    (h : f.request? q attempt request = some g) : g.roster = f.roster :=
  roster_changeLeaf (fun _ _ => Leaf.entry_request) h

theorem roster_release {container : ContainerId} (h : f.releaseContainer? q container = some g) :
    g.roster = f.roster := roster_changeLeaf (fun _ _ => Leaf.entry_release) h

theorem kin_of_roster (h : g.roster = f.roster) : Kin f g where
  size := size_of_roster h
  parent := field_of_roster Node.parent Node.roster_parent h
  composite := field_of_roster Node.isComposite Node.roster_isComposite h
  released := field_of_roster Node.released Node.roster_released h

end

end Forest

/-- Whether an operation leaves it as it is who created which queue and what is counted. -/
def Event.keepsRoster : Event → Bool
  | .submit _ _ _ | .finish _ _ | .createLeaf _ _ => false
  | _ => true

namespace System

theorem roster_perform {s : System} {e : Event} (quiet : e.keepsRoster = true) :
    (s.perform e).forest.roster = s.forest.roster := by
  have optional {g : Option Forest} (h : ∀ k, g = some k → k.roster = s.forest.roster) :
      (g.getD s.forest).roster = s.forest.roster := by
    cases g with
    | none => rfl
    | some k => exact h k rfl
  cases pass : e.isPass with
  | true =>
    apply pass_preserves (P := fun f => f.roster = s.forest.roster) pass
    case counted =>
      intro f q same
      exact (Forest.roster_updateDemand f q).trans same
    case shared =>
      intro f root capacity same
      exact (Forest.roster_distribute .steady f root capacity).trans same
    case ticked =>
      intro f root capacity now same
      exact (Forest.roster_tick f root capacity now).trans same
    case assigned =>
      intro f q machine _ same
      exact (Forest.roster_offer machine (f.shape q) f).trans same
    case holds => rfl
  | false =>
    cases e with
    | request q attempt request => exact optional fun k => Forest.roster_request
    | release q container => exact optional fun k => Forest.roster_release
    | reload allocation =>
      rw [perform, QueueTree.reload]
      cases allocation.check <;> rfl
    | attach parent child => exact Forest.roster_attach _ parent child
    | detach parent name => exact optional fun k => Forest.roster_detach
    | submit q attempt user => cases quiet
    | finish q attempt => cases quiet
    | createLeaf name policy => cases quiet
    | _ => cases pass

end System
end FairShare
