import FairShare.Forest.Demand
import FairShare.Proofs.Fitting

/-!
Totals that are cut at a cap.  A cap puts a ceiling on every dimension, and cutting takes the
smaller of an amount and its ceiling.  So a total that is cut after every addition is the sum, cut
once; and a total that is at the cap stays there, whatever is added to it.
-/

namespace FairShare
namespace Resource

theorem sum_append (l m : List Resource) : sum (l ++ m) = m.foldl (· + ·) (sum l) :=
  List.foldl_append

theorem sum_concat (l : List Resource) (r : Resource) : sum (l ++ [r]) = sum l + r :=
  sum_append l [r]

theorem get_sum_le_append (l m : List Resource) (dim : String) :
    (sum l).get dim ≤ (sum (l ++ m)).get dim := by
  rw [get_sum, get_sum, exact_append]
  omega

theorem exact_eq_zero {l : List Resource} {dim : String} (none : ∀ r ∈ l, r.get dim = 0) :
    exact l dim = 0 := by
  induction l with
  | nil => rfl
  | cons r l ih => rw [exact_cons, none r (by simp), ih fun s hs => none s (by simp [hs])]

theorem get_sum_eq_zero {l : List Resource} {dim : String} (none : ∀ r ∈ l, r.get dim = 0) :
    (sum l).get dim = 0 := by
  rw [get_sum, exact_eq_zero none, Nat.zero_min]

end Resource

namespace Forest

open Resource (sum)

/-- The most that a cap leaves of one dimension. -/
def ceiling (cap : Option Resource) (dim : String) : Nat :=
  match cap with
  | some cap => if cap.get dim = 0 then maxAmount else cap.get dim
  | none => maxAmount

variable {cap : Option Resource}

theorem ceiling_le (cap : Option Resource) (dim : String) : ceiling cap dim ≤ maxAmount := by
  cases cap with
  | none => exact Nat.le_refl _
  | some m =>
    have := m.get_le dim
    rw [ceiling]
    split <;> omega

@[simp] theorem get_cut (cap : Option Resource) (r : Resource) (dim : String) :
    (cut cap r).get dim = min (r.get dim) (ceiling cap dim) := by
  have := r.get_le dim
  cases cap with
  | none =>
    rw [cut, ceiling]
    omega
  | some m =>
    rw [cut, ceiling, Resource.get_clampTo]
    split <;> omega

/-- What was cut before an addition need not have been. -/
theorem cut_cut_add (cap : Option Resource) (r s : Resource) :
    cut cap (cut cap r + s) = cut cap (r + s) := by
  cases cap with
  | none => rfl
  | some m => exact Resource.clampTo_add_clampTo r s m

theorem cut_zero (cap : Option Resource) : cut cap .zero = .zero := by
  apply Resource.ext_get
  intro d
  rw [get_cut, Resource.get_zero, Nat.zero_min]

theorem isPinned_iff {r : Resource} :
    isPinned cap r = true ↔ ∃ m ∈ cap, m.isZero = false ∧ ∀ d, m.get d ≤ r.get d := by
  cases cap with
  | none => simp [isPinned]
  | some m => simp [isPinned, Resource.fitsIn_iff]

theorem isPinned_zero : isPinned cap .zero = false := by
  refine Bool.eq_false_iff.2 fun h => ?_
  obtain ⟨m, -, nonzero, le⟩ := isPinned_iff.1 h
  have zero : m.isZero = true := Resource.isZero_iff.2 fun d => Nat.le_zero.1 (le d)
  rw [zero] at nonzero
  cases nonzero

theorem isPinned_of_isZero (empty : ∀ m ∈ cap, m.isZero = true) (r : Resource) :
    isPinned cap r = false := by
  refine Bool.eq_false_iff.2 fun h => ?_
  obtain ⟨m, hm, nonzero, -⟩ := isPinned_iff.1 h
  rw [empty m hm] at nonzero
  cases nonzero

/-- Demands on top of a total at the cap change it only where the cap names no dimension. -/
theorem get_cut_of_isPinned {l m : List Resource} (pinned : isPinned cap (cut cap (sum l)) = true)
    {c : Resource} (hc : cap = some c) {dim : String} (named : c.get dim ≠ 0) :
    (cut cap (sum (l ++ m))).get dim = c.get dim := by
  subst hc
  obtain ⟨c', hc', -, le⟩ := isPinned_iff.1 pinned
  obtain rfl : c = c' := Option.some.inj hc'
  have reached : Resource.AtCap c ((sum (l ++ m)).clampTo c) := by
    rw [Resource.atCap_clampTo_iff]
    calc c ≤ (sum l).clampTo c := Resource.le_iff.2 le
      _ ≤ sum l := Resource.clampTo_le (sum l) c
      _ ≤ sum (l ++ m) := Resource.le_iff.2 (Resource.get_sum_le_append l m)
  exact reached dim (Resource.mem_dims.2 (Nat.pos_of_ne_zero named))

/-- Demands on top of a total at the cap leave it at the cap. -/
theorem isPinned_append {l m : List Resource} (pinned : isPinned cap (cut cap (sum l)) = true) :
    isPinned cap (cut cap (sum (l ++ m))) = true := by
  obtain ⟨c, hc, nonzero, -⟩ := isPinned_iff.1 pinned
  refine isPinned_iff.2 ⟨c, hc, nonzero, fun dim => ?_⟩
  by_cases named : c.get dim = 0
  · omega
  · exact Nat.le_of_eq (get_cut_of_isPinned pinned hc named).symm

end Forest
end FairShare
