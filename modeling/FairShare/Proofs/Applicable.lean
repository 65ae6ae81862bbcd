import FairShare.Forest.Holding
import FairShare.Proofs.Creation
import FairShare.Proofs.Origin

/-!
Policies that apply where their queues stand.  A policy is checked when a queue is created, for the
scope that the queue is created for, and when it is installed later, for the scope that is read off
the queue.  The two are the same, and nothing that happens to other queues changes the scope of a
queue: not that it is detached, nor that the queue under which it was created is gone.

Several trees share a forest here, so that queues may be attached anywhere.  Which allocation is in
force plays no part.
-/

namespace FairShare

/-- The policy of a queue applies where the queue stands. -/
def Node.fits (n : Node) : Bool := n.policy.appliesTo n.scope

theorem Node.fits_origin (n : Node) : n.origin.fits = n.fits := by
  rw [fits, fits, origin_policy, origin_scope]

theorem Node.fits_mapComposite (k : Composite → Composite) (n : Node) :
    (n.mapComposite k).fits = n.fits := by
  rw [← fits_origin, origin_mapComposite, fits_origin]

namespace Forest

/-- The policies of all queues apply where the queues stand. -/
def Fits (f : Forest) : Prop := ∀ q, (f.node q).fits = true

section

variable {f g : Forest} {n : Node}

theorem Fits.of_origin (fits : f.Fits) (same : g.origin = f.origin) : g.Fits := by
  intro q
  rw [field_of_origin Node.fits Node.fits_origin same]
  exact fits q

theorem Fits.add (fits : f.Fits) (own : n.fits = true) : (f.add n).1.Fits := by
  intro q
  rw [node_add]
  split
  · exact own
  · exact fits q

theorem Fits.grow (fits : f.Fits) (own : n.fits = true) (p : QueueId) : (f.grow n p).Fits := by
  intro q
  rw [node_grow_field Node.fits_mapComposite]
  exact fits.add own q

theorem create_eq (f : Forest) (scope : Scope) (n : Node) :
    f.create scope n =
      if n.policy.appliesTo scope = true then .ok (f.add n)
      else .error (.policyNotApplicable n.policy.name n.name) := by
  rw [create, Policy.checkScope]
  split <;> rfl

theorem setPolicy_eq (f : Forest) (q : QueueId) (p : Policy) :
    f.setPolicy q p =
      if p.appliesTo (f.node q).scope = true then .ok (f.update q fun n => { n with policy := p })
      else .error (.policyNotApplicable p.name (f.node q).name) := by
  rw [setPolicy, Policy.checkScope]
  split <;> rfl

/-- A queue that is created for its own scope fits. -/
theorem Fits.create {scope : Scope} {q : QueueId} (fits : f.Fits) (meant : n.scope = scope)
    (created : f.create scope n = .ok (g, q)) : g.Fits := by
  rw [create_eq] at created
  split at created
  · next applies =>
    cases created
    apply fits.add
    rw [Node.fits, meant, applies]
  · cases created

theorem Fits.setPolicy {q : QueueId} {p : Policy} (fits : f.Fits)
    (installed : f.setPolicy q p = .ok g) : g.Fits := by
  rw [setPolicy_eq] at installed
  split at installed
  · next applies =>
    cases installed
    intro r
    rw [node_update]
    split
    · next same =>
      -- The scope does not depend on the policy.
      obtain ⟨rfl, -⟩ := same
      exact applies
    · exact fits r
  · cases installed

theorem origin_releaseOnce (f : Forest) (held : List QueueId) :
    (f.releaseOnce held).origin = f.origin := by
  rw [origin_eq_iff]
  refine ⟨rfl, ?_⟩
  rw [releaseOnce]
  apply Array.ext (by simp)
  intro q _ _
  simp only [Array.getElem_map, Array.getElem_mapIdx]
  split <;> rfl

/-- A queue that is no longer held keeps what it was created as, and so do those below it. -/
theorem origin_release (f : Forest) (held : List QueueId) : (f.release held).origin = f.origin := by
  rw [release]
  generalize f.nodes.size = rounds
  induction rounds generalizing f with
  | zero => rfl
  | succ n ih => exact (ih _).trans (origin_releaseOnce f held)

end

end Forest

namespace QueueTree

variable {t t' : QueueTree} {n : Node} {p : QueueId} {outcome : Except TreeError QueueId}

theorem Creation.fits (creation : Creation t p n (t', outcome)) (fits : t.forest.Fits) :
    t'.forest.Fits := by
  cases creation with
  | refused refuses =>
    -- Sinks do not matter.
    exact fits
  | added applies adds =>
    obtain ⟨metrics, forest⟩ := adds.forest
    have start : ({ t.forest with metrics } : Forest).Fits := fits
    rw [forest]
    exact start.grow applies p

theorem fits_createComposite (fits : t.forest.Fits) (name : String) (parent : QueueId)
    (policy : Policy) : (t.createComposite name parent policy).1.forest.Fits :=
  (t.createComposite_cases name parent policy).fits fits

theorem fits_createLeaf (fits : t.forest.Fits) (name : String) (policy : Policy) :
    (t.createLeaf name policy).1.forest.Fits := by
  generalize created : t.createLeaf name policy = result
  have ended := t.createLeaf_cases name policy
  rw [created] at ended
  cases ended with
  | duplicate known => exact fits
  | orphan new orphan => exact fits
  | below new hp creation => exact creation.fits fits

theorem fits_rootTree {f : Forest} {policy : Policy} (fits : f.Fits)
    (applies : policy.appliesTo .root = true) : (rootTree f policy).forest.Fits := by
  have start (metrics : Metrics) : ({ f with metrics } : Forest).Fits := fits
  exact (start _).add applies

theorem fits_addPlanned {factory : PolicyFactory} {a : Allocation}
    {before names asked : List String} (fits : t.forest.Fits)
    (built : addPlanned factory a before names t = (asked, .ok t')) : t'.forest.Fits := by
  apply addPlanned_induction (P := fun _ _ t => t.forest.Fits) _ [] built fits
  intro done name rest t parent policy t' q _ created fits
  have kept : (createPlanned a t name parent policy).1.forest.Fits := by
    rw [createPlanned]
    split
    · exact fits_createComposite fits name parent policy
    · exact fits_createLeaf fits name policy
  rwa [created] at kept

theorem fits_buildIn {f : Forest} {factory : PolicyFactory} {a : Allocation}
    {asked : List String} (fits : f.Fits) (built : buildIn f factory a = (asked, .ok t)) :
    t.forest.Fits := by
  obtain ⟨-, policy, later, applies, built⟩ := exists_root_of_build built
  exact fits_addPlanned (fits_rootTree fits applies) built

end QueueTree

/-- Queues that were created one by one, and trees that were built, in one forest. -/
structure Grove where
  forest : Forest := { allocation := {} }
  trees : List QueueTree := []

namespace Grove

/-- What is done with queues and with the policies on them. -/
inductive Event where
  | root (sink : SinkId) (policy : Policy)
  | child (name : String) (parent : QueueId) (sink : SinkId) (policy : Policy)
  | leaf (name : String) (parent : QueueId) (sink : SinkId) (policy : Policy)
  | build (factory : QueueTree.PolicyFactory) (a : Allocation)
  | createLeaf (tree : Nat) (name : String) (policy : Policy)
  | attach (parent child : QueueId)
  | detach (parent : QueueId) (name : String)
  /-- From now on only some queues are referred to from outside. -/
  | drop (held : List QueueId)
  | setPolicy (queue : QueueId) (policy : Policy)

/-- Creates a queue for a scope. -/
def create (g : Grove) (scope : Scope) (n : Node) : Grove × Option TreeError :=
  match g.forest.create scope n with
  | .error e => (g, some e)
  | .ok (forest, _) => ({ g with forest }, none)

/-- The forest after an operation, and why it was refused if it was. -/
def perform (g : Grove) : Event → Grove × Option TreeError
  | .root sink policy =>
    g.create .root { name := Path.root, parent := none, policy, sink, body := .composite {} }
  | .child name parent sink policy =>
    g.create .intermediate { name, parent := some parent, policy, sink, body := .composite {} }
  | .leaf name parent sink policy =>
    g.create .leaf { name, parent := some parent, policy, sink, body := .leaf {} }
  | .build factory a =>
    match (QueueTree.buildIn g.forest factory a).2 with
    | .error e => (g, some e)
    | .ok t => ({ forest := t.forest, trees := g.trees ++ [t] }, none)
  | .createLeaf tree name policy =>
    match g.trees[tree]? with
    | none => (g, none)
    | some t =>
      let (t, outcome) := { t with forest := g.forest }.createLeaf name policy
      ({ forest := t.forest, trees := g.trees.set tree t },
        match outcome with
        | .error e => some e
        | .ok _ => none)
  | .attach parent child => ({ g with forest := g.forest.attach parent child }, none)
  | .detach parent name =>
    ({ g with forest := (g.forest.detach? parent name).getD g.forest }, none)
  | .drop held => ({ g with forest := g.forest.release held }, none)
  | .setPolicy queue policy =>
    match g.forest.setPolicy queue policy with
    | .error e => (g, some e)
    | .ok forest => ({ g with forest }, none)

/-- The policy that an operation is given for a single queue, the scope that it is checked for and
the name of the queue. -/
def asks? (g : Grove) : Event → Option (Policy × Scope × String)
  | .root _ policy => some (policy, .root, Path.root)
  | .child name _ _ policy => some (policy, .intermediate, name)
  | .leaf name _ _ policy => some (policy, .leaf, name)
  | .setPolicy queue policy =>
    some (policy, (g.forest.node queue).scope, (g.forest.node queue).name)
  | _ => none

def run (g : Grove) (events : List Event) : Grove := events.foldl (fun g e => (g.perform e).1) g

section

variable {g : Grove}

theorem fits_create (fits : g.forest.Fits) {scope : Scope} {n : Node} (meant : n.scope = scope) :
    (g.create scope n).1.forest.Fits := by
  rw [create]
  split
  · exact fits
  · next created => exact fits.create meant created

theorem fits_perform (fits : g.forest.Fits) (e : Event) : (g.perform e).1.forest.Fits := by
  cases e with
  | root sink policy => exact fits_create fits rfl
  | child name parent sink policy => exact fits_create fits rfl
  | leaf name parent sink policy => exact fits_create fits rfl
  | build factory a =>
    rw [perform]
    generalize h : QueueTree.buildIn g.forest factory a = result
    obtain ⟨asked, e | t⟩ := result
    · exact fits
    · exact QueueTree.fits_buildIn fits h
  | createLeaf tree name policy =>
    rw [perform]
    split
    · exact fits
    · next t _ =>
      have start : ({ t with forest := g.forest } : QueueTree).forest.Fits := fits
      exact QueueTree.fits_createLeaf start name policy
  | attach parent child =>
    exact fits.of_origin (Forest.origin_updateComposite g.forest parent _)
  | detach parent name =>
    cases removed : g.forest.detach? parent name with
    | none =>
      rw [perform, removed]
      exact fits
    | some f =>
      rw [perform, removed]
      exact fits.of_origin (Forest.origin_detach removed)
  | drop held => exact fits.of_origin (g.forest.origin_release held)
  | setPolicy queue policy =>
    rw [perform]
    split
    · exact fits
    · next installed => exact fits.setPolicy installed

/-- Creating a queue is refused when its policy does not apply, with nothing changed, and for no
other reason. -/
theorem create_ends (g : Grove) (scope : Scope) (n : Node) :
    if n.policy.appliesTo scope = true then (g.create scope n).2 = none
    else g.create scope n = (g, some (.policyNotApplicable n.policy.name n.name)) := by
  rw [create, Forest.create_eq]
  cases n.policy.appliesTo scope <;> rfl

theorem perform_setPolicy (g : Grove) (q : QueueId) (p : Policy) :
    g.perform (.setPolicy q p) =
      if p.appliesTo (g.forest.node q).scope = true then
        ({ g with forest := g.forest.update q fun n => { n with policy := p } }, none)
      else (g, some (.policyNotApplicable p.name (g.forest.node q).name)) := by
  rw [perform, Forest.setPolicy_eq]
  cases p.appliesTo (g.forest.node q).scope <;> rfl

/-- The same of every policy that is given for a single queue. -/
theorem perform_of_asks {e : Event} {policy : Policy} {scope : Scope} {name : String}
    (asks : g.asks? e = some (policy, scope, name)) :
    if policy.appliesTo scope = true then (g.perform e).2 = none
    else g.perform e = (g, some (.policyNotApplicable policy.name name)) := by
  cases e with
  | root sink p =>
    cases asks
    exact g.create_ends .root
      { name := Path.root, parent := none, policy, sink, body := .composite {} }
  | child name parent sink p =>
    cases asks
    exact g.create_ends .intermediate
      { name, parent := some parent, policy, sink, body := .composite {} }
  | leaf name parent sink p =>
    cases asks
    exact g.create_ends .leaf
      { name, parent := some parent, policy, sink, body := .leaf {} }
  | setPolicy q p =>
    cases asks
    rw [perform_setPolicy]
    split <;> rfl
  | _ => cases asks

/-- What is refused leaves all queues as they were, with the queues that they list. -/
theorem nodes_of_refused {e : Event} {refusal : TreeError}
    (refused : (g.perform e).2 = some refusal) :
    (g.perform e).1.forest.nodes = g.forest.nodes := by
  cases asks : g.asks? e with
  | some asked =>
    obtain ⟨policy, scope, name⟩ := asked
    have ends := perform_of_asks asks
    split at ends
    · rw [ends] at refused
      cases refused
    · rw [ends]
  | none =>
    cases e with
    | build factory a =>
      rw [perform] at refused ⊢
      split
      · rfl
      · next built =>
        rw [built] at refused
        cases refused
    | createLeaf tree name policy =>
      rw [perform] at refused ⊢
      split at refused
      · rfl
      · next t _ =>
        have ended := ({ t with forest := g.forest } : QueueTree).createLeaf_cases name policy
        generalize ({ t with forest := g.forest } : QueueTree).createLeaf name policy = result
          at ended refused ⊢
        cases ended with
        | duplicate known => rfl
        | orphan new orphan => rfl
        | below new parent creation =>
          cases creation with
          | refused refuses => rfl
          | added applies adds => cases refused
    | attach parent child => cases refused
    | detach parent name => cases refused
    | drop held => cases refused
    | _ => cases asks

theorem fits_run (fits : g.forest.Fits) (events : List Event) : (g.run events).forest.Fits := by
  induction events generalizing g with
  | nil => exact fits
  | cons e rest ih => exact ih (fits_perform fits e)

/-- Whatever is created, attached, detached, dropped or given another policy, and whatever of that
is refused: the policy of every queue applies where the queue stands.  What is refused leaves all
queues as they were.  A policy that is given for a single queue is refused exactly when it does not
apply, with nothing changed; the refusal names the policy and the queue.  Otherwise it is
installed. -/
theorem applicable_run (events : List Event) :
    let g := ({} : Grove).run events
    (∀ q, (g.forest.node q).policy.appliesTo (g.forest.node q).scope = true) ∧
      (∀ e refusal, (g.perform e).2 = some refusal →
        (g.perform e).1.forest.nodes = g.forest.nodes) ∧
      (∀ e policy scope name, g.asks? e = some (policy, scope, name) →
        if policy.appliesTo scope = true then (g.perform e).2 = none
        else g.perform e = (g, some (.policyNotApplicable policy.name name))) ∧
      ∀ q policy, policy.appliesTo (g.forest.node q).scope = true →
        (g.perform (.setPolicy q policy)).1.forest =
          g.forest.update q fun n => { n with policy } := by
  intro g
  refine ⟨?_, ?_, ?_, ?_⟩
  · -- There is no queue to begin with.
    exact fits_run (g := {}) (fun _ => rfl) events
  · intro e refusal refused
    exact nodes_of_refused refused
  · intro e policy scope name asks
    exact perform_of_asks asks
  · intro q policy applies
    rw [perform_setPolicy, if_pos applies]

/-- The parent of the second queue is gone, but that does not make the queue a root. -/
theorem applicable_run_orphaned :
    let g := ({} : Grove).run [.root 0 .fair, .child "root.a" 0 1 .fair, .drop [1]]
    g.forest.parent? 1 = none ∧
      g.perform (.setPolicy 1 .rootOnly) =
        (g, some (.policyNotApplicable "root-only" "root.a")) ∧
      (g.perform (.setPolicy 1 .midOnly)).2 = none := by
  intro g
  obtain ⟨-, -, checked, -⟩ :=
    applicable_run [.root 0 .fair, .child "root.a" 0 1 .fair, .drop [1]]
  refine ⟨by decide +kernel, ?_, ?_⟩
  · exact checked (.setPolicy 1 .rootOnly) .rootOnly .intermediate "root.a" rfl
  · exact checked (.setPolicy 1 .midOnly) .midOnly .intermediate "root.a" rfl

end

end Grove
end FairShare
