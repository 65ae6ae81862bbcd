import Mathlib.Data.List.Induction
import FairShare.Policy.Catalogue
import FairShare.Ranked

/-!
The order of equals.  Under a total preorder, ranking a list is the stable merge sort of the library;
under any comparison it permutes the list and depends on what the comparison says of its elements
only.  The scan for the greatest finds the first element that none exceeds.  The policies that can be
named are total preorders.
-/

namespace FairShare

variable {α β : Type} {cmp : α → α → Ordering}

theorem perm_insertRanked (cmp : α → α → Ordering) (x : α) (l : List α) :
    (insertRanked cmp x l).Perm (x :: l) := by
  induction l with
  | nil => exact .refl _
  | cons y rest ih =>
    rw [insertRanked]
    split
    · exact (ih.cons y).trans (.swap x y rest)
    · exact .refl _

theorem perm_ranked (cmp : α → α → Ordering) (l : List α) : (ranked cmp l).Perm l := by
  induction l with
  | nil => exact .refl _
  | cons x rest ih => exact (perm_insertRanked cmp x _).trans (ih.cons x)

theorem mem_ranked {x : α} {l : List α} : x ∈ ranked cmp l ↔ x ∈ l := (perm_ranked cmp l).mem_iff

theorem insertRanked_map (cmp : β → β → Ordering) (h : α → β) (x : α) (l : List α) :
    insertRanked cmp (h x) (l.map h) = (insertRanked (fun a b => cmp (h a) (h b)) x l).map h := by
  induction l with
  | nil => rfl
  | cons y rest ih =>
    simp only [List.map_cons, insertRanked, ih]
    split <;> rfl

theorem ranked_map (cmp : β → β → Ordering) (h : α → β) (l : List α) :
    ranked cmp (l.map h) = (ranked (fun a b => cmp (h a) (h b)) l).map h := by
  induction l with
  | nil => rfl
  | cons x rest ih => rw [List.map_cons, ranked, ih, insertRanked_map, ranked]

/-- An element goes behind those that it exceeds and before the others. -/
theorem insertRanked_append {x : α} {l m : List α} (hl : ∀ y ∈ l, cmp x y = .gt)
    (hm : ∀ y ∈ m.head?, cmp x y ≠ .gt) : insertRanked cmp x (l ++ m) = l ++ x :: m := by
  induction l with
  | nil =>
    cases m with
    | nil => rfl
    | cons y m =>
      rw [List.nil_append, insertRanked, if_neg (hm y (by simp))]
      rfl
  | cons y l ih =>
    rw [List.cons_append, insertRanked, if_pos (hl y (by simp)),
      ih fun z hz => hl z (by simp [hz])]
    rfl

theorem isLE_total [Std.OrientedCmp cmp] (a b : α) : ((cmp a b).isLE || (cmp b a).isLE) = true := by
  have swap : cmp b a = (cmp a b).swap := Std.OrientedCmp.eq_swap
  rw [swap]
  cases cmp a b <;> rfl

/-- Under a total preorder, ranking is the stable sort. -/
theorem ranked_eq_mergeSort [Std.TransCmp cmp] (l : List α) :
    ranked cmp l = l.mergeSort fun a b => (cmp a b).isLE := by
  have trans (a b c : α) (hab : (cmp a b).isLE) (hbc : (cmp b c).isLE) : (cmp a c).isLE :=
    Std.TransCmp.isLE_trans hab hbc
  have total : ∀ a b : α, (cmp a b).isLE || (cmp b a).isLE := isLE_total
  induction l with
  | nil => simp [ranked]
  | cons x rest ih =>
    -- The stable sort puts the first element between those that it exceeds and the others.
    obtain ⟨l, m, hx, hrest, hl⟩ := List.mergeSort_cons trans total x rest
    have ascending := List.pairwise_mergeSort trans total (x :: rest)
    rw [hx, List.pairwise_append, List.pairwise_cons] at ascending
    rw [ranked, ih, hrest, hx]
    apply insertRanked_append
    · intro y hy
      have exceeded := hl y hy
      cases h : cmp x y <;> simp_all
    · intro y hy
      have below := ascending.2.1.1 y (List.mem_of_mem_head? hy)
      cases h : cmp x y <;> simp_all

/-- Under a total preorder, what is in order stays as it is. -/
theorem ranked_ranked [Std.TransCmp cmp] (l : List α) :
    ranked cmp (ranked cmp l) = ranked cmp l := by
  rw [ranked_eq_mergeSort, ranked_eq_mergeSort]
  exact List.mergeSort_of_pairwise
    (List.pairwise_mergeSort (fun _ _ _ => Std.TransCmp.isLE_trans) isLE_total l)

theorem firstGreatest_cons_cons (cmp : α → α → Ordering) (b x : α) (l : List α) :
    firstGreatest cmp (b :: x :: l) =
      firstGreatest cmp ((if cmp x b = .gt then x else b) :: l) := by
  rw [firstGreatest, firstGreatest, List.foldl_cons, List.foldl_cons, List.foldl_cons]
  by_cases h : cmp x b = .gt <;> simp [h]

theorem firstGreatest_map (cmp : β → β → Ordering) (h : α → β) (l : List α) :
    firstGreatest cmp (l.map h) = (firstGreatest (fun a b => cmp (h a) (h b)) l).map h := by
  cases l with
  | nil => rfl
  | cons b l =>
    induction l generalizing b with
    | nil => rfl
    | cons x l ih =>
      rw [firstGreatest_cons_cons, ← ih, List.map_cons, List.map_cons, firstGreatest_cons_cons,
        List.map_cons]
      split <;> rfl

/-- Of a list that is not empty, the scan finds the element that exceeds those before it and that
none after it exceeds. -/
theorem firstGreatest_cons (cmp : α → α → Ordering) [Std.TransCmp cmp] (b : α) (l : List α) :
    ∃ before c after, firstGreatest cmp (b :: l) = some c ∧ b :: l = before ++ c :: after ∧
      (∀ x ∈ before, cmp x c = .lt) ∧ ∀ x ∈ after, cmp x c ≠ .gt := by
  induction l generalizing b with
  | nil => exact ⟨[], b, [], rfl, rfl, by simp, by simp⟩
  | cons x l ih =>
    rw [firstGreatest_cons_cons]
    split
    · next exceeds =>
      -- The new candidate exceeds the old one, and so does whatever is found from it on.
      obtain ⟨before, c, after, found, split, less, rest⟩ := ih x
      refine ⟨b :: before, c, after, found, by rw [split, List.cons_append], ?_, rest⟩
      have first : cmp b x = .lt := Std.OrientedCmp.gt_iff_lt.1 exceeds
      refine List.forall_mem_cons.2 ⟨?_, less⟩
      cases before with
      | nil =>
        obtain ⟨rfl, -⟩ := List.cons.inj split
        exact first
      | cons y before =>
        obtain ⟨rfl, -⟩ := List.cons.inj split
        exact Std.TransCmp.lt_trans first (less x (by simp))
    · next stays =>
      obtain ⟨before, c, after, found, split, less, rest⟩ := ih b
      cases before with
      | nil =>
        obtain ⟨rfl, rfl⟩ := List.cons.inj split
        exact ⟨[], b, x :: l, found, rfl, by simp, List.forall_mem_cons.2 ⟨stays, rest⟩⟩
      | cons y before =>
        obtain ⟨rfl, rfl⟩ := List.cons.inj split
        have second : cmp x c = .lt :=
          Std.TransCmp.lt_of_isLE_of_lt (Ordering.isLE_iff_ne_gt.2 stays) (less b (by simp))
        refine ⟨b :: x :: before, c, after, found, rfl, ?_, rest⟩
        simp only [List.forall_mem_cons] at less ⊢
        exact ⟨less.1, second, less.2⟩

/-- The scan finds the first of the elements that none exceeds. -/
theorem firstGreatest_eq_find? [Std.TransCmp cmp] (l : List α) :
    firstGreatest cmp l = l.find? fun c => l.all fun x => decide (cmp x c ≠ .gt) := by
  cases l with
  | nil => rfl
  | cons b l =>
    obtain ⟨before, c, after, found, split, less, rest⟩ := firstGreatest_cons cmp b l
    rw [found, split]
    symm
    rw [List.find?_eq_some_iff_append]
    refine ⟨?_, before, after, rfl, ?_⟩
    · have self : cmp c c = .eq := Std.ReflCmp.compare_self
      simp only [List.all_append, List.all_cons, Bool.and_eq_true, List.all_eq_true,
        decide_eq_true_eq]
      exact ⟨fun x hx => by simp [less x hx], by simp [self], rest⟩
    · intro x hx
      have exceeded : cmp c x = .gt := Std.OrientedCmp.gt_iff_lt.2 (less x hx)
      simp [exceeded]

/-- A scan that keeps its candidate or takes the next element ends with an element of the list. -/
theorem exists_mem_foldl {choose : Option α → α → Option α} (first : ∀ x, choose none x = some x)
    (next : ∀ b x, choose (some b) x = some b ∨ choose (some b) x = some x) {l : List α}
    (h : l ≠ []) : ∃ x ∈ l, l.foldl choose none = some x := by
  have from_some (l : List α) (b : α) : ∃ x ∈ b :: l, l.foldl choose (some b) = some x := by
    induction l generalizing b with
    | nil => exact ⟨b, by simp, rfl⟩
    | cons x l ih =>
      rw [List.foldl_cons]
      rcases next b x with kept | taken
      · obtain ⟨y, hy, found⟩ := ih b
        exact ⟨y, by grind, by rw [kept, found]⟩
      · obtain ⟨y, hy, found⟩ := ih x
        exact ⟨y, by grind, by rw [taken, found]⟩
  obtain ⟨b, l, rfl⟩ := List.exists_cons_of_ne_nil h
  rw [List.foldl_cons, first]
  exact from_some l b

theorem exists_mem_firstGreatest (cmp : α → α → Ordering) {l : List α} (h : l ≠ []) :
    ∃ x ∈ l, firstGreatest cmp l = some x := by
  refine exists_mem_foldl (fun _ => rfl) (fun b x => ?_) h
  by_cases exceeds : cmp x b = .gt <;> simp [exceeds]

theorem mem_of_firstGreatest {cmp : α → α → Ordering} {l : List α} {x : α}
    (h : firstGreatest cmp l = some x) : x ∈ l := by
  have listed : l ≠ [] := by
    rintro rfl
    cases h
  obtain ⟨y, hy, found⟩ := exists_mem_firstGreatest cmp listed
  rw [found] at h
  exact Option.some.inj h ▸ hy

theorem exists_mem_lastGreatest (cmp : α → α → Ordering) {l : List α} (h : l ≠ []) :
    ∃ x ∈ l, lastGreatest cmp l = some x := by
  refine exists_mem_foldl (fun _ => rfl) (fun b x => ?_) h
  by_cases exceeded : cmp x b = .lt <;> simp [exceeded]

theorem lastGreatest_concat (cmp : α → α → Ordering) (l : List α) (x : α) :
    lastGreatest cmp (l ++ [x]) =
      match lastGreatest cmp l with
      | none => some x
      | some b => if cmp x b = .lt then some b else some x := by
  rw [lastGreatest, List.foldl_append]
  rfl

/-- The scan for the last of the greatest finds an element that none before it exceeds and that
exceeds all those after it. -/
theorem lastGreatest_eq_some (cmp : α → α → Ordering) [Std.TransCmp cmp] {l : List α} {c : α}
    (h : lastGreatest cmp l = some c) :
    ∃ before after, l = before ++ c :: after ∧ (∀ x ∈ before, (cmp x c).isLE) ∧
      ∀ x ∈ after, cmp x c = .lt := by
  -- The scan ends with the last element or with what it found before it.
  induction l using List.reverseRecOn generalizing c with
  | nil => cases h
  | append_singleton l x ih =>
    rw [lastGreatest_concat] at h
    cases found : lastGreatest cmp l with
    | none =>
      obtain rfl : l = [] := by
        by_contra listed
        obtain ⟨y, -, some⟩ := exists_mem_lastGreatest cmp listed
        rw [found] at some
        cases some
      rw [found] at h
      cases h
      exact ⟨[], [], rfl, by simp, by simp⟩
    | some b =>
      obtain ⟨before, after, split, least, less⟩ := ih found
      rw [found] at h
      dsimp only at h
      split at h
      case isTrue exceeded =>
        obtain rfl := Option.some.inj h
        refine ⟨before, after ++ [x], by rw [split, List.append_assoc, List.cons_append], least, ?_⟩
        exact List.forall_mem_append.2 ⟨less, by simpa using exceeded⟩
      case isFalse stays =>
        obtain rfl := Option.some.inj h
        have swap : cmp b x = (cmp x b).swap := Std.OrientedCmp.eq_swap
        have last : (cmp b x).isLE := by
          rw [swap]
          cases order : cmp x b with
          | lt => exact absurd order stays
          | eq => rfl
          | gt => rfl
        have self : cmp b b = .eq := Std.ReflCmp.compare_self
        refine ⟨l, [], rfl, fun y hy => ?_, by simp⟩
        -- What was found before bounds all elements before, and the last element bounds it.
        have bounded : (cmp y b).isLE := by
          rw [split, List.mem_append, List.mem_cons] at hy
          rcases hy with hy | rfl | hy
          · exact least y hy
          · rw [self]
            rfl
          · rw [less y hy]
            rfl
        exact Std.TransCmp.isLE_trans bounded last

/-- A comparison of what stands for the elements is a total preorder if the comparison is. -/
theorem transCmp_comap (cmp : α → α → Ordering) [Std.TransCmp cmp] (h : β → α) :
    Std.TransCmp fun a b => cmp (h a) (h b) where
  eq_swap := Std.OrientedCmp.eq_swap
  isLE_trans := Std.TransCmp.isLE_trans

theorem transCmp_on [Ord β] [Std.TransOrd β] (key : α → β) :
    Std.TransCmp fun a b => compare (key a) (key b) where
  eq_swap := Std.OrientedOrd.eq_swap
  isLE_trans := Std.TransOrd.isLE_trans

theorem transCmp_on_swap [Ord β] [Std.TransOrd β] (key : α → β) :
    Std.TransCmp fun a b => compare (key b) (key a) where
  eq_swap := Std.OrientedOrd.eq_swap
  isLE_trans hab hbc := Std.TransOrd.isLE_trans hbc hab

namespace Policy

/-- Every policy that can be named is a total preorder. -/
theorem transCmp_of_mem_catalogue {p : Policy} (hp : p ∈ catalogue) : Std.TransCmp p.compare := by
  have equal : Std.TransCmp fun _ _ : Standing => Ordering.eq := transCmp_on fun _ => 0
  simp only [catalogue, List.mem_cons, List.not_mem_nil, or_false] at hp
  rcases hp with rfl | rfl | rfl | rfl | rfl | rfl | rfl | rfl
  · exact transCmp_on fun s => Decimal.orderKey (usageRatio s)
  · exact equal
  · exact transCmp_on rankOf
  · exact equal
  · exact equal
  · exact transCmp_on_swap Standing.name
  · exact transCmp_on fun s => Decimal.orderKey (scaledRank s)
  · exact transCmp_on_swap fun s : Standing => s.demand.memory

end Policy
end FairShare
