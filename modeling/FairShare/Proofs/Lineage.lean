import Mathlib.Data.List.Perm.Lattice
import FairShare.Proofs.Structure

/-!
Who was created under whom.  The chain of parents of a queue and the child lists are kept apart: the
chain never changes, while a queue may be listed anywhere or nowhere.  Where queues are listed at
most once and only by the queue they were created under, child lists lead to trees; where every
queue is listed there, the queues of such a tree are those that were created below its root.
-/

namespace FairShare
namespace Node

@[simp] theorem mapComposite_parent (k : Composite → Composite) (n : Node) :
    (n.mapComposite k).parent = n.parent := by
  unfold mapComposite
  split <;> rfl

@[simp] theorem mapComposite_released (k : Composite → Composite) (n : Node) :
    (n.mapComposite k).released = n.released := by
  unfold mapComposite
  split <;> rfl

@[simp] theorem mapComposite_isComposite (k : Composite → Composite) (n : Node) :
    (n.mapComposite k).isComposite = n.isComposite := by
  cases hb : n.body <;> simp [mapComposite, isComposite, hb]

@[simp] theorem mapLeaf_parent (k : Leaf → Leaf) (n : Node) :
    (n.mapLeaf k).parent = n.parent := by
  unfold mapLeaf
  split <;> rfl

@[simp] theorem mapLeaf_released (k : Leaf → Leaf) (n : Node) :
    (n.mapLeaf k).released = n.released := by
  unfold mapLeaf
  split <;> rfl

@[simp] theorem mapLeaf_isComposite (k : Leaf → Leaf) (n : Node) :
    (n.mapLeaf k).isComposite = n.isComposite := by
  cases hb : n.body <;> simp [mapLeaf, isComposite, hb]

end Node

namespace Forest

/-- Whether a queue is on the chain of parents of another. -/
inductive Above (f : Forest) (p : QueueId) : QueueId → Prop
  | parent {q : QueueId} (h : (f.node q).parent = some p) : Above f p q
  | further {q r : QueueId} (h : (f.node q).parent = some r) (above : Above f p r) : Above f p q

/-- Every parent is a composite queue that was there before the child and is still held. -/
structure Lineage (f : Forest) : Prop where
  older : ∀ {p q}, (f.node q).parent = some p → p < q
  composite : ∀ {p q}, (f.node q).parent = some p → (f.node p).isComposite = true
  held : ∀ {p q}, (f.node q).parent = some p → (f.node p).released = false

/-- The queues that were created below a queue, listed or not. -/
def createdBelow (f : Forest) (p : QueueId) : List QueueId :=
  (List.range f.nodes.size).filter fun q => p ∈ f.ancestors q

section

variable {f : Forest} {p q r c d : QueueId}

theorem above_iff : f.Above p q ↔ ∃ r, (f.node q).parent = some r ∧ (r = p ∨ f.Above p r) := by
  constructor
  · rintro (h | ⟨h, above⟩)
    · exact ⟨p, h, .inl rfl⟩
    · exact ⟨_, h, .inr above⟩
  · rintro ⟨r, h, rfl | above⟩
    · exact .parent h
    · exact .further h above

theorem lt_size_of_parent (h : (f.node q).parent = some p) : q < f.nodes.size := by
  by_contra unknown
  rw [node_of_size_le (Nat.not_lt.1 unknown)] at h
  cases h

theorem Above.lt_size (h : f.Above p q) : q < f.nodes.size := by
  obtain ⟨r, h, -⟩ := above_iff.1 h
  exact lt_size_of_parent h

theorem Above.trans (pq : f.Above p q) (qr : f.Above q r) : f.Above p r := by
  induction qr with
  | parent h => exact .further h pq
  | further h _ ih => exact .further h ih

/-- The chain from a queue up to another passes through a child of that one. -/
theorem Above.exists_child (h : f.Above p q) :
    ∃ c, (f.node c).parent = some p ∧ (c = q ∨ f.Above c q) := by
  induction h with
  | @parent q h => exact ⟨q, h, .inl rfl⟩
  | further h _ ih =>
    obtain ⟨c, hc, rfl | above⟩ := ih
    · exact ⟨c, hc, .inr (.parent h)⟩
    · exact ⟨c, hc, .inr (.further h above)⟩

/-- Two queues on one chain lie one above the other. -/
theorem Above.comparable (hc : f.Above c q) (hd : f.Above d q) :
    c = d ∨ f.Above c d ∨ f.Above d c := by
  induction hc with
  | parent h =>
    obtain ⟨r, hr, rfl | above⟩ := above_iff.1 hd
    · exact .inl (Option.some.inj (h.symm.trans hr))
    · obtain rfl := Option.some.inj (h.symm.trans hr)
      exact .inr (.inr above)
  | further h above ih =>
    obtain ⟨r, hr, rfl | further⟩ := above_iff.1 hd
    · obtain rfl := Option.some.inj (h.symm.trans hr)
      exact .inr (.inl above)
    · obtain rfl := Option.some.inj (h.symm.trans hr)
      exact ih further

namespace Lineage

variable (lineage : f.Lineage)

include lineage

theorem lt_of_above (h : f.Above p q) : p < q := by
  induction h with
  | parent h => exact lineage.older h
  | further h _ ih => exact ih.trans (lineage.older h)

theorem isComposite_of_above (h : f.Above p q) : (f.node p).isComposite = true := by
  induction h with
  | parent h => exact lineage.composite h
  | further _ _ ih => exact ih

/-- Only one child of a queue leads down to another queue. -/
theorem child_unique (hc : (f.node c).parent = some p) (hd : (f.node d).parent = some p)
    (cq : c = q ∨ f.Above c q) (dq : d = q ∨ f.Above d q) : c = d := by
  -- A child above its sibling would be their parent or lie above it.
  have apart {c d : QueueId} (hc : (f.node c).parent = some p)
      (hd : (f.node d).parent = some p) : ¬ f.Above c d := by
    intro h
    obtain ⟨r, hr, above⟩ := above_iff.1 h
    obtain rfl := Option.some.inj (hr.symm.trans hd)
    have younger := lineage.older hc
    rcases above with rfl | above
    · exact Nat.lt_irrefl _ younger
    · exact Nat.lt_asymm younger (lineage.lt_of_above above)
  rcases cq with rfl | cq
  · rcases dq with rfl | dq
    · rfl
    · exact absurd dq (apart hd hc)
  · rcases dq with rfl | dq
    · exact absurd cq (apart hc hd)
    · exact (cq.comparable dq).resolve_right fun h => h.elim (apart hc hd) (apart hd hc)

theorem parent?_eq (q : QueueId) : f.parent? q = (f.node q).parent := by
  rw [parent?]
  cases h : (f.node q).parent with
  | none => rfl
  | some p => simp [lineage.held h]

theorem mem_ancestorsUpTo {n : Nat} (enough : ∀ r, (f.node q).parent = some r → q ≤ n) :
    p ∈ f.ancestorsUpTo n q ↔ f.Above p q := by
  induction n generalizing q with
  | zero =>
    have orphan : ¬ f.Above p q := by
      intro h
      obtain ⟨r, hr, -⟩ := above_iff.1 h
      exact absurd (lineage.older hr) (Nat.not_lt.2 ((enough r hr).trans (Nat.zero_le r)))
    simp [ancestorsUpTo, orphan]
  | succ n ih =>
    -- A parent is older, so one step less is enough for it.
    rw [ancestorsUpTo, lineage.parent?_eq, above_iff]
    cases hr : (f.node q).parent with
    | none => simp
    | some r =>
      have shorter : r ≤ n := Nat.le_of_lt_succ ((lineage.older hr).trans_le (enough r hr))
      rw [List.mem_cons, ih fun _ _ => shorter]
      simp [eq_comm]

/-- The queues under which a queue was created are those on its chain of parents. -/
theorem mem_ancestors : p ∈ f.ancestors q ↔ f.Above p q :=
  lineage.mem_ancestorsUpTo fun _ h => (lt_size_of_parent h).le

theorem nodup_ancestorsUpTo (n : Nat) (q : QueueId) :
    (f.ancestorsUpTo n q).Nodup ∧ ∀ p ∈ f.ancestorsUpTo n q, p < q := by
  induction n generalizing q with
  | zero => exact ⟨List.nodup_nil, by simp [ancestorsUpTo]⟩
  | succ n ih =>
    rw [ancestorsUpTo, lineage.parent?_eq]
    cases hr : (f.node q).parent with
    | none => simp
    | some r =>
      obtain ⟨distinct, older⟩ := ih r
      have first := lineage.older hr
      refine ⟨List.nodup_cons.2 ⟨fun h => Nat.lt_irrefl r (older r h), distinct⟩, fun p hp => ?_⟩
      rcases List.mem_cons.1 hp with rfl | hp
      · exact first
      · exact (older p hp).trans first

theorem nodup_ancestors (q : QueueId) : (f.ancestors q).Nodup :=
  (lineage.nodup_ancestorsUpTo _ q).1

theorem mem_createdBelow : q ∈ f.createdBelow p ↔ f.Above p q := by
  rw [createdBelow, List.mem_filter, decide_eq_true_eq, lineage.mem_ancestors, List.mem_range]
  exact ⟨And.right, fun h => ⟨h.lt_size, h⟩⟩

end Lineage

theorem nodup_createdBelow (f : Forest) (p : QueueId) : (f.createdBelow p).Nodup :=
  List.nodup_range.filter _

/-- The same queues, created under the same queues. -/
structure Kin (f g : Forest) : Prop where
  size : g.nodes.size = f.nodes.size
  parent : ∀ q, (g.node q).parent = (f.node q).parent
  composite : ∀ q, (g.node q).isComposite = (f.node q).isComposite
  released : ∀ q, (g.node q).released = (f.node q).released

namespace Kin

variable {g h : Forest} (fg : Kin f g)

include fg

theorem trans (gh : Kin g h) : Kin f h where
  size := gh.size.trans fg.size
  parent q := (gh.parent q).trans (fg.parent q)
  composite q := (gh.composite q).trans (fg.composite q)
  released q := (gh.released q).trans (fg.released q)

theorem lineage (lineage : f.Lineage) : g.Lineage where
  older h := lineage.older (fg.parent _ ▸ h)
  composite h := (fg.composite _).trans (lineage.composite (fg.parent _ ▸ h))
  held h := (fg.released _).trans (lineage.held (fg.parent _ ▸ h))

theorem parent? (q : QueueId) : g.parent? q = f.parent? q := by
  simp only [Forest.parent?, fg.parent, fg.released]

theorem ancestors (q : QueueId) : g.ancestors q = f.ancestors q := by
  have upTo (n : Nat) (q : QueueId) : g.ancestorsUpTo n q = f.ancestorsUpTo n q := by
    induction n generalizing q with
    | zero => rfl
    | succ n ih => simp only [ancestorsUpTo, fg.parent?, ih]
  rw [Forest.ancestors, Forest.ancestors, fg.size, upTo]

theorem createdBelow (p : QueueId) : g.createdBelow p = f.createdBelow p := by
  simp only [Forest.createdBelow, fg.size, fg.ancestors]

end Kin

theorem kin_update (f : Forest) (q : QueueId) {k : Node → Node}
    (parent : ∀ n, (k n).parent = n.parent) (composite : ∀ n, (k n).isComposite = n.isComposite)
    (released : ∀ n, (k n).released = n.released) : Kin f (f.update q k) where
  size := size_update f q k
  parent p := by rw [node_update]; split <;> simp [parent]
  composite p := by rw [node_update]; split <;> simp [composite]
  released p := by rw [node_update]; split <;> simp [released]

theorem kin_updateComposite (f : Forest) (q : QueueId) (k : Composite → Composite) :
    Kin f (f.updateComposite q k) :=
  kin_update f q (Node.mapComposite_parent k) (Node.mapComposite_isComposite k)
    (Node.mapComposite_released k)

theorem kin_mapLeaf (f : Forest) (q : QueueId) (k : Leaf → Leaf) :
    Kin f (f.update q (Node.mapLeaf k)) :=
  kin_update f q (Node.mapLeaf_parent k) (Node.mapLeaf_isComposite k) (Node.mapLeaf_released k)

/-- The same queues in the same places, siblings in any order, created under the same queues. -/
structure Akin (f g : Forest) : Prop extends Kin f g where
  name : ∀ q, (g.node q).name = (f.node q).name
  scripted : ∀ q, (g.node q).isScripted = (f.node q).isScripted
  children : ∀ q, (g.node q).children.Perm (f.node q).children

theorem Akin.of_nodes {g : Forest} (h : g.nodes = f.nodes) : Akin f g := by
  have same (q : QueueId) : g.node q = f.node q := by rw [node, node, h]
  exact ⟨⟨by rw [h], fun q => by rw [same], fun q => by rw [same], fun q => by rw [same]⟩,
    fun q => by rw [same], fun q => by rw [same], fun q => .of_eq (by rw [same])⟩

theorem Alike.akin {g : Forest} (alike : Alike f g) (kin : Kin f g) : Akin f g :=
  ⟨kin, alike.name, alike.scripted, alike.children⟩

/-- Queues are listed once at most, and only by the queue they were created under. -/
structure Owned (f : Forest) : Prop extends Lineage f where
  plain : ∀ q, (f.node q).isScripted = false
  once : ∀ p, (f.node p).children.Nodup
  own : ∀ {p c}, c ∈ (f.node p).children → (f.node c).parent = some p

/-- Every queue is listed, once, by the queue it was created under. -/
structure Linked (f : Forest) : Prop extends Owned f where
  listed : ∀ {p c}, (f.node c).parent = some p → c ∈ (f.node p).children

namespace Owned

variable (owned : f.Owned)

include owned

theorem above_of_mem_unfold {n : Nat} (h : p ∈ (f.unfold n q).ids) : p = q ∨ f.Above q p := by
  induction n generalizing q with
  | zero => exact .inl (by simpa [unfold, Shape.ids_node] using h)
  | succ n ih =>
    rw [unfold, Shape.mem_ids_node] at h
    rcases h with rfl | ⟨s, hs, hp⟩
    · exact .inl rfl
    · obtain ⟨c, hc, rfl⟩ := List.mem_map.1 hs
      have child : f.Above q c := .parent (owned.own hc)
      rcases ih hp with rfl | above
      · exact .inr child
      · exact .inr (child.trans above)

theorem nodup_unfold (n : Nat) (q : QueueId) : (f.unfold n q).ids.Nodup := by
  induction n generalizing q with
  | zero => simp [unfold, Shape.ids_node]
  | succ n ih =>
    rw [unfold, Shape.ids_node, List.flatMap_map, List.nodup_cons]
    constructor
    · intro h
      obtain ⟨c, hc, hq⟩ := List.mem_flatMap.1 h
      have child : f.Above q c := .parent (owned.own hc)
      rcases owned.above_of_mem_unfold hq with rfl | above
      · exact Nat.lt_irrefl _ (owned.lt_of_above child)
      · exact Nat.lt_irrefl _ (owned.lt_of_above (child.trans above))
    · -- Two children of one queue lead to different queues.
      refine List.nodup_flatMap.2 ⟨fun c _ => ih c, (owned.once q).imp_of_mem ?_⟩
      intro c d hc hd other
      refine List.disjoint_left.2 fun p pc pd => ?_
      exact other (owned.child_unique (owned.own hc) (owned.own hd)
        ((owned.above_of_mem_unfold pc).imp_left Eq.symm)
        ((owned.above_of_mem_unfold pd).imp_left Eq.symm))

theorem isTree (hq : q < f.nodes.size) : f.IsTree q where
  known p hp := by
    rw [queues_eq_ids] at hp
    rcases owned.above_of_mem_unfold hp with rfl | above
    · exact hq
    · exact above.lt_size
  distinct := by
    rw [queues_eq_ids]
    exact owned.nodup_unfold _ q
  plain p _ := owned.plain p

theorem above_of_mem_queues (h : p ∈ f.queues q) : p = q ∨ f.Above q p := by
  rw [queues_eq_ids] at h
  exact owned.above_of_mem_unfold h

theorem of_akin {g : Forest} (akin : Akin f g) : g.Owned where
  toLineage := akin.lineage owned.toLineage
  plain q := (akin.scripted q).trans (owned.plain q)
  once p := (akin.children p).nodup_iff.2 (owned.once p)
  own h := (akin.parent _).trans (owned.own ((akin.children _).mem_iff.1 h))

end Owned

theorem IsTree.child_mem_queues (tree : f.IsTree q) (hc : c ∈ (f.node q).children) :
    c ∈ f.queues q := by
  have children := tree.unfolds _ (Shape.self_mem_parts _)
  rw [id_shape] at children
  obtain ⟨s, hs, rfl⟩ := List.mem_map.1 (children ▸ hc)
  rw [queues_eq_ids]
  generalize f.shape q = whole at hs
  cases whole with
  | node q below => exact Shape.mem_ids_node.2 (.inr ⟨s, hs, s.id_mem_ids⟩)

namespace Linked

variable (linked : f.Linked)

include linked

/-- The queues of a tree are its root and those that were created below it. -/
theorem mem_queues (hq : q < f.nodes.size) : p ∈ f.queues q ↔ p = q ∨ f.Above q p := by
  refine ⟨linked.above_of_mem_queues, ?_⟩
  rintro (rfl | above)
  · exact f.mem_queues_self p
  · have tree := linked.isTree hq
    induction above with
    | parent h => exact tree.child_mem_queues (linked.listed h)
    | further h _ ih =>
      have below := tree.of_mem_queues ih
      exact tree.mem_queues_trans ih (below.child_mem_queues (linked.listed h))

theorem of_akin {g : Forest} (akin : Akin f g) : g.Linked where
  toOwned := linked.toOwned.of_akin akin
  listed h := (akin.children _).mem_iff.2 (linked.listed (akin.parent _ ▸ h))

theorem queues_perm (hq : q < f.nodes.size) : (f.queues q).Perm (q :: f.createdBelow q) := by
  have self : q ∉ f.createdBelow q := fun h =>
    Nat.lt_irrefl q (linked.lt_of_above (linked.mem_createdBelow.1 h))
  have distinct := List.nodup_cons.2 ⟨self, f.nodup_createdBelow q⟩
  refine (List.perm_ext_iff_of_nodup (linked.isTree hq).distinct distinct).2 fun p => ?_
  rw [linked.mem_queues hq, List.mem_cons, linked.mem_createdBelow]

end Linked

end

end Forest
end FairShare
