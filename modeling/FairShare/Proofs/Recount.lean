import FairShare.Proofs.Counting

/-!
Counting again.  A count that follows another one comes to the same demands child by child, so it
stops at the same child and leaves out the same queues: nothing changes.  That is so as well if
something else, such as shares or times, was written in between.
-/

namespace FairShare
namespace Forest

open Resource (sum)

variable {f g h : Forest} {q : QueueId} {s : Shape} {front back front' back' : List Shape}

theorem Follows.of_uncounted (follows : f.Follows s) (same : g.uncounted = f.uncounted) :
    g.Follows s :=
  follows.congr (keeps_of_uncounted same).size
    (field_of_uncounted Node.children Node.uncounted_children same)

/-- If the children that both counts come to demand the same after each, both stop at the same
child. -/
theorem Counts.front_eq {c d : Composite} (first : Counts f g q c front back)
    (second : Counts g h q d front' back') (cap : g.maxShare q = f.maxShare q)
    (same : front ++ back = front' ++ back')
    (demands : ∀ s ∈ front, s ∈ front' → h.demandAt s = g.demandAt s) : front' = front := by
  rcases List.append_eq_append_iff.1 same with ⟨more, rfl, rfl⟩ | ⟨more, rfl, rfl⟩
  · cases more with
    | nil => exact List.append_nil front
    | cons s rest =>
      -- The second count would go on where the first was at the cap.
      have totals : front.map h.demandAt = front.map g.demandAt :=
        List.map_congr_left fun t ht => demands t ht (List.mem_append_left _ ht)
      have closed := first.closed (by simp)
      have opened := second.opened front s rest rfl
      rw [totals, cap, closed] at opened
      cases opened
  · cases more with
    | nil => exact (List.append_nil front').symm
    | cons s rest =>
      -- The second count would stop where the first was not at the cap yet.
      have totals : front'.map h.demandAt = front'.map g.demandAt :=
        List.map_congr_left fun t ht => demands t (List.mem_append_left _ ht) ht
      have opened := first.opened front' s rest rfl
      have closed := second.closed (by simp)
      rw [totals, cap, opened] at closed
      cases closed

/-- If a second count stops at the same child and agrees with the first on the children before it,
it agrees with the first on all queues of the shape. -/
theorem Counts.agreeOn {c : Composite} {demand : Resource} (first : Counts f g q c front back)
    (second : Counts g h q { c with demand } front back)
    (follows : g.Follows (.node q (front ++ back))) (kept : Keeps g h)
    (cap : g.maxShare q = f.maxShare q) (agree : ∀ s ∈ front, AgreeOn s.ids g h) :
    AgreeOn (Shape.node q (front ++ back)).ids g h := by
  have demands : (front ++ back).map h.demandAt = (front ++ back).map g.demandAt := by
    rw [List.map_append, List.map_append]
    congr 1
    · exact List.map_congr_left fun s hs => (agree s hs).demand s.id_mem_ids
    · exact List.map_congr_left fun s hs => second.demandAt_back follows hs
  refine .of_keeps kept fun p hp => ?_
  by_cases hq : p = q
  · subst hq
    rw [first.body, second.body, demands, cap]
  · by_cases hfront : ∃ s ∈ front, p ∈ s.ids
    · obtain ⟨s, hs, inside⟩ := hfront
      exact (agree s hs).body p inside
    · rw [second.left p hq fun s hs inside => hfront ⟨s, hs, inside⟩]

/-- A second count gives every queue of a shape the demand that the first gave it. -/
theorem agreeOn_recount (follows : f.Follows s)
    (plain : ∀ p ∈ s.ids, (f.node p).isScripted = false) :
    AgreeOn s.ids (countDemand s f) (countDemand s (countDemand s f)) := by
  induction s with
  | node q below ih =>
    have same := uncounted_countDemand (.node q below) f
    have follows' := follows.of_uncounted same
    have kept := keeps_countDemand (.node q below) (countDemand (.node q below) f)
    have cap : (countDemand (.node q below) f).maxShare q = f.maxShare q :=
      (keeps_of_uncounted same).maxShare q
    rcases Node.body_of_not_scripted (plain q (Shape.id_mem_ids _)) with ⟨c, hb⟩ | ⟨l, hb⟩
    · obtain ⟨front, back, rfl, first, -⟩ := counts_of_composite follows hb
      obtain ⟨front', back', halves, second, -⟩ := counts_of_composite follows' first.body
      generalize countDemand (.node q (front ++ back)) f = g at first second kept cap follows'
      generalize countDemand (.node q (front ++ back)) g = h at second kept
      -- Below a child that both counts come to, each count is that of the child alone.
      have agree (s : Shape) (hs : s ∈ front) (hs' : s ∈ front') : AgreeOn s.ids g h := by
        have hbelow : s ∈ front ++ back := List.mem_append_left back hs
        have again := ih s hbelow (follows.of_mem_below hbelow) fun p hp =>
          plain p (Shape.mem_ids_node.2 (.inr ⟨s, hbelow, hp⟩))
        have alone : AgreeOn s.ids (countDemand s (countDemand s f)) (countDemand s g) :=
          ((first.counted s hs).countDemand (List.Subset.refl _)).1
        exact (first.counted s hs).symm.trans ((again.trans alone).trans (second.counted s hs'))
      obtain rfl : front' = front := by
        apply first.front_eq second cap halves
        exact fun s hs hs' => (agree s hs hs').demand s.id_mem_ids
      obtain rfl : back = back' := List.append_cancel_left halves
      exact first.agreeOn second follows' kept cap fun s hs => agree s hs hs
    · have known := follows.known q (Shape.id_mem_ids _)
      have once := node_countDemand_of_leaf below known hb
      have hb' : ((countDemand (.node q below) f).node q).body =
          .leaf { l with demand := cut (f.maxShare q) l.want } := by rw [once]
      have twice := node_countDemand_of_leaf below (follows'.known q (Shape.id_mem_ids _)) hb'
      refine .of_keeps kept fun p hp => ?_
      rw [follows.below_eq_nil (by simp [hb])] at hp
      obtain rfl : p = q := by simpa [Shape.ids_node] using hp
      rw [twice, hb', cap]
      rfl

/-- A count changes nothing where another count has left the demands as they are. -/
theorem countDemand_of_agreeOn (follows : f.Follows s)
    (plain : ∀ p ∈ s.ids, (f.node p).isScripted = false)
    (agree : AgreeOn s.ids (countDemand s f) g) : countDemand s g = g := by
  have kept := keeps_countDemand s g
  have same := uncounted_countDemand s g
  have metrics : (countDemand s g).uncounted.metrics = g.uncounted.metrics := by rw [same]
  -- The count does the same here as a second count right after the first.
  have again : AgreeOn s.ids (countDemand s (countDemand s f)) (countDemand s g) :=
    (agree.countDemand (List.Subset.refl _)).1
  have settled : AgreeOn s.ids g (countDemand s g) :=
    agree.symm.trans ((agreeOn_recount follows plain).trans again)
  apply eq_of_node kept.allocation metrics kept.size
  intro p
  by_cases hp : p ∈ s.ids
  · exact Node.eq_of_uncounted (node_of_uncounted same p) (settled.body p hp)
  · exact node_countDemand_of_not_mem hp g

theorem updateDemand_of_agreeOn {root : QueueId} (tree : f.IsTree root)
    (shape : g.shape root = f.shape root)
    (agree : AgreeOn (f.shape root).ids (f.updateDemand root) g) : g.updateDemand root = g := by
  rw [updateDemand, shape]
  exact countDemand_of_agreeOn tree.rooted.follows tree.carries.plain agree

/-- An update of demand that follows another one changes nothing. -/
theorem updateDemand_updateDemand {root : QueueId} (tree : f.IsTree root) :
    (f.updateDemand root).updateDemand root = f.updateDemand root :=
  updateDemand_of_agreeOn tree (shape_of_uncounted (uncounted_countDemand _ f) root) (.refl _ _)

end Forest
end FairShare
