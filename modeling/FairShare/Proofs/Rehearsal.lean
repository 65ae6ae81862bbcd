import FairShare.Proofs.Offer
import FairShare.Proofs.Preemption
import FairShare.Proofs.Refresh
import FairShare.Session.Run

/-!
A dry run against an assignment.  Both put the children of a queue into the order in which its
policy sees them before anything is granted: the dry run orders a copy and leaves out the children
whose demand is met, the assignment orders the children in place.  Nothing that is granted below
moves them again.
-/

namespace FairShare
namespace Forest

variable {f : Forest} {c : QueueId} {machine : Machine}

/-- Whether a queue demands what does not fit in its usage. -/
def isUnmet (f : Forest) (q : QueueId) : Bool := !(f.node q).demand.fitsIn (f.usage q)

/-- The children of a queue in the order of its policy. -/
def orderedChildren (f : Forest) (q : QueueId) : List QueueId :=
  ranked (fun a b => f.rankBelow q (f.shape a) (f.shape b)) (f.node q).children

theorem inOrder_children (f : Forest) (q : QueueId) :
    f.inOrder (f.node q).policy ((f.node q).children.map f.shape) =
      (f.orderedChildren q).map f.shape := ranked_map _ f.shape _

theorem map_id_map_shape (f : Forest) (l : List QueueId) : (l.map f.shape).map Shape.id = l := by
  have own : Shape.id ∘ f.shape = id := funext f.id_shape
  rw [List.map_map, own, List.map_id]

/-- A dry run shows the children with unmet demand. -/
theorem simulate_eq_filter (rooted : f.IsRooted c) :
    f.simulate c = (f.orderedChildren c).filter f.isUnmet := by
  have unmet (q : QueueId) : (!(f.node (f.shape q).id).demand.fitsIn (f.usageBelow (f.shape q))) =
      f.isUnmet q := by
    rw [id_shape]
    rfl
  have ordered : f.rankBy (f.node c).policy id ((f.node c).children.map f.shape) =
      (f.orderedChildren c).map f.shape := (rankBy_eq_ranked f _ id _).trans (f.inOrder_children c)
  rw [simulate, rooted.shape_eq, Shape.subtrees_node, ordered, List.filter_map]
  simp only [Function.comp_def, unmet, map_id_map_shape]

/-- An assignment leaves the children of the queue in order, whether or not it grants anything. -/
theorem children_assign (rooted : f.IsRooted c) (composite : (f.node c).isComposite = true)
    (accepted : f.accepts machine (f.shape c) = true) :
    ((f.assign machine c).1.node c).children = f.orderedChildren c := by
  obtain ⟨a, hb⟩ := Node.body_of_isComposite composite
  have known : c < f.nodes.size := rooted.known c (f.mem_queues_self c)
  have follows := rooted.follows
  rw [rooted.shape_eq] at accepted follows
  rw [assign, rooted.shape_eq, node_offer_of_composite hb accepted known fun s hs =>
    follows.not_mem_below hs, inOrder_children, map_id_map_shape]
  exact Node.children_withChildren (perm_ranked _ _)

theorem run_simulate (s : Session) {name : String} (found : s.composite? name = .ok c) :
    s.run (.query name .simulate) =
      (s, .ok (.names ((s.forest.simulate c).map fun q => (s.forest.node q).name))) := by
  rw [Session.run, Session.answer, Session.ask, found]
  rfl

/-- A dry run shows, of the children that an assignment leaves in stable order, those whose demand
was unmet before, and a session is left by it as it was. -/
theorem simulate_rehearses_assign (machine : Machine) (rooted : f.IsRooted c)
    (composite : (f.node c).isComposite = true)
    (order : Std.TransCmp (f.node c).policy.compare)
    (accepted : f.accepts machine (f.shape c) = true) :
    f.simulate c = ((f.assign machine c).1.node c).children.filter
        (fun d => !(f.node d).demand.fitsIn (f.usage d)) ∧
      ((f.assign machine c).1.node c).children = (f.node c).children.mergeSort
        (fun a b => ((f.node c).policy.compare (f.standing (f.shape a))
          (f.standing (f.shape b))).isLE) ∧
      ∀ (s : Session) (name : String), s.forest = f → s.composite? name = .ok c →
        s.run (.query name .simulate) =
          (s, .ok (.names ((f.simulate c).map fun q => (f.node q).name))) := by
  have := transCmp_rankBelow order
  have := transCmp_comap (f.rankBelow c) f.shape
  rw [children_assign rooted composite accepted]
  refine ⟨simulate_eq_filter rooted, ranked_eq_mergeSort _, fun s name hs found => ?_⟩
  rw [run_simulate s found, hs]

/-- A root that offers machines to the greatest demand first: of its children the first and the
third demand the same, the demand of the second is met, and the last is scripted. -/
def rehearsed : Forest where
  allocation := {}
  nodes :=
    #[{ name := "root", parent := none, policy := .demand, sink := 0
        body := .composite { children := [1, 2, 3, 4] } },
      { name := "root.a", parent := some 0, policy := .demand, sink := 1
        body := .leaf
          { apps := [{ attempt := ⟨⟨1⟩, 1⟩, user := "ann", pending := [.ofMemoryCores 2 1] }]
            demand := .ofMemoryCores 2 1 } },
      { name := "root.b", parent := some 0, policy := .demand, sink := 2
        body := .leaf
          { apps := [{ attempt := ⟨⟨2⟩, 1⟩, user := "bob"
                       running := [⟨⟨⟨⟨2⟩, 1⟩, 1⟩, .ofMemoryCores 5 1⟩], nextSequence := 2 }]
            demand := .ofMemoryCores 5 1 } },
      { name := "root.c", parent := some 0, policy := .demand, sink := 3
        body := .leaf
          { apps := [{ attempt := ⟨⟨3⟩, 1⟩, user := "eve", pending := [.ofMemoryCores 2 2] }]
            demand := .ofMemoryCores 2 2 } },
      { name := "root.d", parent := some 0, policy := .demand, sink := 4
        body := .scripted { demand := .ofMemoryCores 9 1 } }]

def rehearsedSession : Session where
  tree :=
    { forest := rehearsed
      root := 0
      composites := Table.ofList [("root", 0)]
      leaves := ∅
      sinks := ∅ }

/-- The order is the same if the machine takes a container and if nothing fits on it. -/
theorem simulate_rehearses_assign_rehearsed :
    rehearsed.IsRooted 0 ∧ rehearsed.simulate 0 = [4, 1, 3] ∧
      (rehearsed.assign ⟨"m", .ofMemoryCores 8 8, none⟩ 0).2 = .ofMemoryCores 2 1 ∧
      (rehearsed.assign ⟨"n", .ofMemoryCores 1 1, none⟩ 0).2 = .zero ∧
      (∀ machine ∈ [Machine.mk "m" (.ofMemoryCores 8 8) none, ⟨"n", .ofMemoryCores 1 1, none⟩],
        rehearsed.simulate 0 = ((rehearsed.assign machine 0).1.node 0).children.filter
          fun d => !(rehearsed.node d).demand.fitsIn (rehearsed.usage d)) ∧
      rehearsedSession.run (.query "root" .simulate) =
        (rehearsedSession, .ok (.names ["root.d", "root.a", "root.c"])) := by
  have rooted : rehearsed.IsRooted 0 := by decide
  have order : Std.TransCmp (rehearsed.node 0).policy.compare :=
    Policy.transCmp_of_mem_catalogue (by simp [Policy.catalogue, rehearsed, node])
  have shown : rehearsed.simulate 0 = [4, 1, 3] := by decide +kernel
  have agree (machine : Machine)
      (accepted : rehearsed.accepts machine (rehearsed.shape 0) = true) :=
    simulate_rehearses_assign machine rooted (by decide) order accepted
  refine ⟨rooted, shown, by decide +kernel, by decide +kernel, fun machine hm => ?_, ?_⟩
  · have accepted : rehearsed.accepts machine (rehearsed.shape 0) = true := by
      simp only [List.mem_cons, List.not_mem_nil, or_false] at hm
      rcases hm with rfl | rfl <;> decide +kernel
    exact (agree machine accepted).1
  · have asked := (agree ⟨"m", .ofMemoryCores 8 8, none⟩ (by decide +kernel)).2.2
      rehearsedSession "root" rfl (by decide +kernel)
    rw [shown] at asked
    exact asked

end Forest
end FairShare
