import Mathlib.Data.List.Flatten
import FairShare.Forest.Applications
import FairShare.Proofs.Passes

/-!
Operations that start no container.  Applications that are taken in bring none along, and what ends
or is released is gone; so the containers that run afterwards ran before, in the same order.
-/

namespace FairShare
namespace Leaf

/-- The containers that run in a leaf. -/
def running (l : Leaf) : List Container := l.apps.flatMap App.running

/-- The application that is changed is the first of its attempt. -/
theorem updateApp?_eq_some {attempt : AttemptId} {k : App → App} {l m : List App}
    (h : updateApp? attempt k l = some m) :
    ∃ before a after, l = before ++ a :: after ∧ a.attempt = attempt ∧
      m = before ++ k a :: after := by
  induction l generalizing m with
  | nil => cases h
  | cons a rest ih =>
    rw [updateApp?] at h
    split at h
    case isTrue own =>
      cases h
      exact ⟨[], a, rest, rfl, own, rfl⟩
    case isFalse =>
      obtain ⟨rest', found, rfl⟩ := Option.map_eq_some_iff.1 h
      obtain ⟨before, b, after, rfl, own, rfl⟩ := ih found
      exact ⟨a :: before, b, after, rfl, own, rfl⟩

variable {l m : Leaf} {attempt : AttemptId} {user : String}

theorem app?_eq_none_iff : l.app? attempt = none ↔ ∀ a ∈ l.apps, a.attempt ≠ attempt := by
  simp [app?]

/-- An attempt that is taken in was not there, and has nothing yet. -/
theorem submit?_eq_some (h : l.submit? attempt user = some m) :
    (∀ a ∈ l.apps, a.attempt ≠ attempt) ∧ m.apps = l.apps ++ [({ attempt, user } : App)] := by
  rw [submit?] at h
  split at h
  · cases h
  next unknown =>
  cases h
  exact ⟨app?_eq_none_iff.1 unknown, rfl⟩

theorem request?_eq_some {request : Resource} (h : l.request? attempt request = some m) :
    ∃ before a after, l.apps = before ++ a :: after ∧ a.attempt = attempt ∧
      m.apps = before ++ { a with pending := a.pending ++ [request] } :: after := by
  obtain ⟨apps, found, rfl⟩ := Option.map_eq_some_iff.1 h
  exact updateApp?_eq_some found

theorem release?_eq_some {id : ContainerId} (h : l.release? id = some m) :
    ∃ before a after, l.apps = before ++ a :: after ∧ a.attempt = id.attempt ∧
      m.apps = before ++ { a with running := a.running.filter fun c => c.id ≠ id } :: after := by
  rw [release?] at h
  split at h
  · cases h
  split at h
  · cases h
  obtain ⟨apps, found, rfl⟩ := Option.map_eq_some_iff.1 h
  exact updateApp?_eq_some found

theorem running_submit (h : l.submit? attempt user = some m) : m.running.Sublist l.running := by
  simp [running, (submit?_eq_some h).2]

theorem running_request {request : Resource} (h : l.request? attempt request = some m) :
    m.running.Sublist l.running := by
  obtain ⟨before, a, after, held, -, holds⟩ := request?_eq_some h
  simp [running, held, holds]

theorem running_finish (h : l.finish? attempt = some (m, user)) :
    m.running.Sublist l.running := by
  obtain ⟨a, -, e⟩ := Option.map_eq_some_iff.1 h
  cases e
  exact List.eraseP_sublist.flatMap _

theorem running_release {container : ContainerId} (h : l.release? container = some m) :
    m.running.Sublist l.running := by
  obtain ⟨before, a, after, held, -, holds⟩ := release?_eq_some h
  rw [running, running, held, holds, List.flatMap_append, List.flatMap_append, List.flatMap_cons,
    List.flatMap_cons]
  exact (List.Sublist.refl _).append (List.filter_sublist.append (.refl _))

end Leaf

namespace Forest

/-- The same queues in the same places, and no container that did not run before. -/
structure Sheds (f g : Forest) : Prop extends Alike f g where
  running : ∀ q, (g.node q).running.Sublist (f.node q).running

theorem Keeps.sheds {f g : Forest} (fg : Keeps f g) : Sheds f g :=
  ⟨fg.toAlike, fun q => fg.running q ▸ .refl _⟩

namespace Sheds

variable {f g h : Forest}

theorem trans (fg : Sheds f g) (gh : Sheds g h) : Sheds f h :=
  ⟨fg.toAlike.trans gh.toAlike, fun q => (gh.running q).trans (fg.running q)⟩

theorem containersIn (fg : Sheds f g) (l : List QueueId) :
    (g.containersIn l).Sublist (f.containersIn l) :=
  .flatMap_right _ fun q _ => fg.running q

end Sheds

variable {f g : Forest} {q : QueueId}

theorem sheds_leaf {l m : Leaf} (hb : (f.node q).body = .leaf l)
    (fewer : m.running.Sublist l.running) : Sheds f (f.update q (Node.mapLeaf fun _ => m)) where
  toAlike := .update f q (Node.mapLeaf_name _) (Node.mapLeaf_isScripted _)
    (.of_eq (Node.mapLeaf_children _ _))
  running p := by
    rw [node_update]
    split
    · next hp =>
      have changed : (f.node p).mapLeaf (fun _ => m) = { f.node p with body := .leaf m } := by
        rw [Node.mapLeaf, hp.1, hb]
      rw [changed, Node.running, Node.running, Node.apps_of_leaf rfl, hp.1, Node.apps_of_leaf hb]
      exact fewer
    · exact .refl _

/-- A change that is made replaces a leaf by what the change makes of it. -/
theorem changeLeaf?_eq_some {change : Leaf → Option Leaf} :
    f.changeLeaf? q change = some g ↔
      ∃ l m, (f.node q).body = .leaf l ∧ change l = some m ∧
        f.update q (Node.mapLeaf fun _ => m) = g := by
  rw [changeLeaf?]
  cases hb : (f.node q).body with
  | leaf l => simp [Option.map_eq_some_iff]
  | _ => simp

/-- An attempt ends in its leaf, and every queue above counts it out. -/
theorem finish?_eq_some {attempt : AttemptId} {user : String} :
    f.finish? q attempt = some (g, user) ↔
      ∃ l m, (f.node q).body = .leaf l ∧ l.finish? attempt = some (m, user) ∧
        (f.update q (Node.mapLeaf fun _ => m)).countAbove countOut q = g := by
  rw [finish?]
  cases hb : (f.node q).body with
  | leaf l => simp [Option.map_eq_some_iff]
  | _ => simp

theorem sheds_changeLeaf {change : Leaf → Option Leaf}
    (fewer : ∀ l m, change l = some m → m.running.Sublist l.running)
    (h : f.changeLeaf? q change = some g) : Sheds f g := by
  obtain ⟨l, m, hb, hm, rfl⟩ := changeLeaf?_eq_some.1 h
  exact sheds_leaf hb (fewer l m hm)

theorem keeps_countAbove {count : Forest → QueueId → Forest} (each : ∀ f q, Keeps f (count f q))
    (f : Forest) (q : QueueId) : Keeps f (f.countAbove count q) :=
  Keeps.foldl each (f.ancestors q) f

theorem keeps_countIn (f : Forest) (q : QueueId) : Keeps f (f.countIn q) :=
  .updateComposite f q fun _ => rfl

theorem keeps_countOut (f : Forest) (q : QueueId) : Keeps f (f.countOut q) :=
  .updateComposite f q fun _ => rfl

variable {attempt : AttemptId} {user : String}

theorem sheds_submit (h : f.submit? q attempt user = some g) : Sheds f g := by
  obtain ⟨changed, h', rfl⟩ := Option.map_eq_some_iff.1 h
  have taken : Sheds f changed := sheds_changeLeaf (fun _ _ => Leaf.running_submit) h'
  exact taken.trans (keeps_countAbove keeps_countIn changed q).sheds

theorem sheds_request {request : Resource} (h : f.request? q attempt request = some g) :
    Sheds f g := sheds_changeLeaf (fun _ _ => Leaf.running_request) h

theorem sheds_finish (h : f.finish? q attempt = some (g, user)) : Sheds f g := by
  obtain ⟨l, m, hb, hm, rfl⟩ := finish?_eq_some.1 h
  have ended := sheds_leaf hb (Leaf.running_finish hm)
  exact ended.trans (keeps_countAbove keeps_countOut _ q).sheds

theorem sheds_release {container : ContainerId}
    (h : f.releaseContainer? q container = some g) : Sheds f g :=
  sheds_changeLeaf (fun _ _ => Leaf.running_release) h

end Forest
end FairShare
