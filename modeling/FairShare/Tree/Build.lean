import FairShare.Policy.Catalogue
import FairShare.Tree.Basic

/-!
Building a tree from an allocation.  The queues are the root, the configured queues and all their
ancestors.  A queue is composite if it is the root, lies above a configured queue, or is configured
as a parent; every other queue is a leaf.
-/

namespace FairShare.QueueTree

/-- Every name that gets a queue, in ascending order. -/
def plannedNames (a : Allocation) : List String :=
  (Table.tabulate (fun _ => some ())
    (Path.root :: a.queues.names.flatMap Path.ancestors)).names

def plannedComposite (a : Allocation) (name : String) : Bool :=
  name = Path.root
    || a.queues.entries.any fun (queue, settings) =>
      (Path.ancestors queue).tail.contains name || (settings.parent && queue = name)

def plannedPolicy (a : Allocation) (name : String) : String :=
  (a.policyName? name).getD Policy.defaultName

/-- The names of the policies that were asked for, and the tree or why there is none. -/
abbrev Outcome := List String × Except TreeError QueueTree

/-- What a policy factory answers to a name, after the names for which it was asked before. -/
abbrev PolicyFactory := List String → String → Except TreeError Policy

/-- Adds planned queues to a tree, after some names were asked for. -/
def addPlanned (factory : PolicyFactory) (a : Allocation) (before : List String) :
    List String → QueueTree → Outcome
  | [], t => ([], .ok t)
  | name :: rest, t =>
    -- A parent precedes its children in the order of names, so it is there.
    match t.parentOf? name with
    | none => ([], .error (.unknownParent name))
    | some parent =>
      let asked := plannedPolicy a name
      match factory before asked with
      | .error e => ([asked], .error e)
      | .ok policy =>
        let (t, created) :=
          if plannedComposite a name then t.createComposite name parent policy
          else t.createLeaf name policy
        match created with
        | .error e => ([asked], .error e)
        | .ok _ =>
          let (later, outcome) := addPlanned factory a (before ++ [asked]) rest t
          (asked :: later, outcome)

/-- A tree in a forest that is only a root. -/
def rootIn (f : Forest) (policy : Policy) : Except TreeError QueueTree :=
  let (metrics, sink) :=
    f.metrics.add { queue := Path.root, parent := none, capacity := logCapacity }
  match ({ f with metrics } : Forest).create .root
    { name := Path.root, parent := none, policy, sink, body := .composite {} } with
  | .error e => .error e
  | .ok (forest, root) =>
    .ok
      { forest, root
        composites := (∅ : Table QueueId).insert Path.root root
        leaves := ∅
        sinks := (∅ : Table SinkId).insert Path.root sink }

/-- Builds the tree of an allocation in a forest, with the policies of a factory. -/
def buildIn (f : Forest) (factory : PolicyFactory) (a : Allocation) : Outcome :=
  match a.check with
  | .error fault => ([], .error (.invalidConfig fault))
  | .ok () =>
    let asked := plannedPolicy a Path.root
    match factory [] asked with
    | .error e => ([asked], .error e)
    | .ok policy =>
      match rootIn f policy with
      | .error e => ([asked], .error e)
      | .ok t =>
        let (later, outcome) :=
          addPlanned factory a [asked] ((plannedNames a).filter (· ≠ Path.root)) t
        (asked :: later, outcome)

/-- Builds the tree of an allocation with the policies of a factory, in a forest of its own. -/
def buildWith (factory : PolicyFactory) (a : Allocation) : Outcome :=
  buildIn { allocation := a } factory a

/-- Builds the tree of an allocation with policies resolved by name. -/
def build (resolve : String → Except TreeError Policy) (a : Allocation) : Outcome :=
  buildWith (fun _ => resolve) a

def resolveNamed (name : String) : Except TreeError Policy :=
  match Policy.named? name with
  | some policy => .ok policy
  | none => .error (.unknownPolicy name)

end FairShare.QueueTree
