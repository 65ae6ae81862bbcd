import Mathlib.Algebra.GroupWithZero.Nat
import FairShare.Resource

/-!
Sums of vectors.  A sum that stops at `maxAmount` after every addition is the exact sum, cut once at
the end; so it depends neither on the order of its terms nor on how they are grouped.
-/

namespace FairShare.Resource

/-- The exact sum of the amounts of vectors in one dimension. -/
def exact : List Resource → String → Nat
  | [], _ => 0
  | r :: l, dim => r.get dim + exact l dim

@[simp] theorem exact_nil (dim : String) : exact [] dim = 0 := rfl

@[simp] theorem exact_cons (r : Resource) (l : List Resource) (dim : String) :
    exact (r :: l) dim = r.get dim + exact l dim := rfl

@[simp] theorem exact_append (l m : List Resource) (dim : String) :
    exact (l ++ m) dim = exact l dim + exact m dim := by
  induction l with
  | nil => rw [List.nil_append, exact_nil, Nat.zero_add]
  | cons r l ih => rw [List.cons_append, exact_cons, exact_cons, ih, Nat.add_assoc]

theorem exact_eq_sum (l : List Resource) (dim : String) :
    exact l dim = (l.map fun r => r.get dim).sum := by
  induction l with
  | nil => rfl
  | cons r l ih => rw [exact_cons, List.map_cons, List.sum_cons, ih]

theorem exact_perm {l m : List Resource} (h : l.Perm m) (dim : String) :
    exact l dim = exact m dim := by
  induction h with
  | nil => rfl
  | cons r _ ih => rw [exact_cons, exact_cons, ih]
  | swap r s l =>
    rw [exact_cons, exact_cons, exact_cons, exact_cons]
    omega
  | trans _ _ ih ih' => exact ih.trans ih'

theorem exact_sublist {l m : List Resource} (h : l.Sublist m) (dim : String) :
    exact l dim ≤ exact m dim := by
  induction h with
  | slnil => exact Nat.le_refl _
  | cons r _ ih => exact Nat.le_trans ih (Nat.le_add_left _ _)
  | cons_cons r _ ih => exact Nat.add_le_add_left ih _

theorem get_foldl_add (l : List Resource) (r : Resource) (dim : String) :
    (l.foldl (· + ·) r).get dim = min (r.get dim + exact l dim) maxAmount := by
  induction l generalizing r with
  | nil =>
    have := r.get_le dim
    rw [List.foldl_nil, exact_nil, Nat.add_zero, Nat.min_eq_left this]
  | cons s l ih =>
    rw [List.foldl_cons, ih, get_add, exact_cons]
    omega

/-- Cutting after every addition is cutting once. -/
theorem get_sum (l : List Resource) (dim : String) :
    (sum l).get dim = min (exact l dim) maxAmount := by
  rw [sum, get_foldl_add, get_zero, Nat.zero_add]

/-- Where there is room, nothing is cut. -/
theorem get_add_of_le {r s : Resource} {dim : String} (room : r.get dim + s.get dim ≤ maxAmount) :
    (r + s).get dim = r.get dim + s.get dim := by
  rw [get_add, Nat.min_eq_left room]

/-- What is taken away and what is left make up what was there. -/
theorem get_add_get_monus {r s : Resource} {dim : String} (le : s.get dim ≤ r.get dim) :
    s.get dim + (r.monus s).get dim = r.get dim := by
  rw [get_monus, Nat.add_sub_of_le le]

@[simp] theorem sum_nil : sum [] = zero := rfl

theorem sum_perm {l m : List Resource} (h : l.Perm m) : sum l = sum m :=
  ext_get fun d => by rw [get_sum, get_sum, exact_perm h]

theorem exact_map_sum (ls : List (List Resource)) (dim : String) :
    min (exact (ls.map sum) dim) maxAmount = min (exact ls.flatten dim) maxAmount := by
  induction ls with
  | nil => rfl
  | cons l ls ih =>
    rw [List.map_cons, exact_cons, List.flatten_cons, exact_append, get_sum]
    omega

theorem sum_map_sum (ls : List (List Resource)) : sum (ls.map sum) = sum ls.flatten :=
  ext_get fun d => by rw [get_sum, get_sum, exact_map_sum]

theorem get_eq_zero_of_isZero {r : Resource} (h : r.isZero = true) (dim : String) : r.get dim = 0 :=
  isZero_iff.1 h dim

theorem eq_zero_of_isZero {r : Resource} (h : r.isZero = true) : r = zero :=
  ext_get fun d => by rw [get_eq_zero_of_isZero h, get_zero]

theorem isZero_zero : zero.isZero = true := rfl

theorem zero_fitsUnder (cap : Resource) : zero.fitsUnder cap = true := rfl

theorem fitsUnder_of_get_le {a b cap : Resource} (h : b.fitsUnder cap = true)
    (le : ∀ dim, a.get dim ≤ b.get dim) : a.fitsUnder cap = true :=
  fitsUnder_iff.2 fun d => (fitsUnder_iff.1 h d).imp_right (Nat.le_trans (le d))

theorem sum_fitsUnder_of_sublist {l m : List Resource} {cap : Resource} (h : l.Sublist m)
    (fits : (sum m).fitsUnder cap = true) : (sum l).fitsUnder cap = true := by
  refine fitsUnder_of_get_le fits fun d => ?_
  rw [get_sum, get_sum]
  have := exact_sublist h d
  omega

end FairShare.Resource
