import Mathlib.Order.Lattice
import FairShare.Proofs.Sum

/-!
Vectors within limits.  What fits in a limit is below it in an order by dimensions, in which `meet`
gives greatest lower bounds; a cap admits what does not exceed it where it names a dimension.
Taking away is paired with adding (`monus_le_iff`), and clamping gives the greatest vector below
another one that the cap admits (`le_clampTo_iff`).  The laws of clamped sums follow from these two
facts, so that neither the end of the range nor the dimensions that a cap names have to be
considered again.
-/

namespace FairShare.Resource

variable {a b c r s cap total : Resource}

theorem fitsIn_trans (ab : a.fitsIn b = true) (bc : b.fitsIn c = true) : a.fitsIn c = true := by
  rw [fitsIn_iff] at ab bc ⊢
  exact fun dim => (ab dim).trans (bc dim)

theorem fitsIn_antisymm (ab : a.fitsIn b = true) (ba : b.fitsIn a = true) : a = b := by
  rw [fitsIn_iff] at ab ba
  exact ext_get fun dim => Nat.le_antisymm (ab dim) (ba dim)

/-- A vector is below the limits in which it fits. -/
instance : PartialOrder Resource where
  le a b := a.fitsIn b = true
  le_refl _ := fitsIn_iff.2 fun _ => Nat.le_refl _
  le_trans _ _ _ := fitsIn_trans
  le_antisymm _ _ := fitsIn_antisymm

theorem le_iff : a ≤ b ↔ ∀ dim, a.get dim ≤ b.get dim := fitsIn_iff

theorem meet_fitsIn_left (a b : Resource) : (a.meet b).fitsIn a = true := by
  rw [fitsIn_iff]
  intro dim
  rw [get_meet]
  exact Nat.min_le_left _ _

theorem meet_fitsIn_right (a b : Resource) : (a.meet b).fitsIn b = true := by
  rw [fitsIn_iff]
  intro dim
  rw [get_meet]
  exact Nat.min_le_right _ _

theorem fitsIn_meet (ra : r.fitsIn a = true) (rb : r.fitsIn b = true) :
    r.fitsIn (a.meet b) = true := by
  rw [fitsIn_iff] at ra rb ⊢
  intro dim
  rw [get_meet]
  exact Nat.le_min.2 ⟨ra dim, rb dim⟩

instance : SemilatticeInf Resource where
  inf := meet
  inf_le_left := meet_fitsIn_left
  inf_le_right := meet_fitsIn_right
  le_inf _ _ _ := fitsIn_meet

protected theorem add_comm (a b : Resource) : a + b = b + a :=
  ext_get fun dim => by rw [get_add, get_add, Nat.add_comm]

/-- However a sum is grouped, it stops at the same amounts. -/
protected theorem add_assoc (a b c : Resource) : a + b + c = a + (b + c) := by
  apply ext_get
  intro dim
  simp only [get_add]
  omega

protected theorem add_le_add (ar : a ≤ r) (bs : b ≤ s) : a + b ≤ r + s := by
  rw [le_iff] at ar bs ⊢
  intro dim
  have := ar dim
  have := bs dim
  rw [get_add, get_add]
  omega

theorem le_self_add (a b : Resource) : a ≤ a + b := by
  rw [le_iff]
  intro dim
  have := a.get_le dim
  rw [get_add]
  omega

/-- What is left without `b` fits in a limit if all of it fits once `b` is added to the limit.  That
the sum stops at `maxAmount` does no harm, since no vector has more. -/
theorem monus_le_iff : a.monus b ≤ c ↔ a ≤ c + b := by
  rw [le_iff, le_iff]
  refine forall_congr' fun dim => ?_
  have := a.get_le dim
  rw [get_monus, get_add]
  omega

theorem monus_le (a b : Resource) : a.monus b ≤ a := monus_le_iff.2 (le_self_add a b)

theorem isZero_monus_iff : (a.monus b).isZero = true ↔ a ≤ b := by
  rw [isZero_iff, le_iff]
  refine forall_congr' fun dim => ?_
  rw [get_monus]
  exact Nat.sub_eq_zero_iff_le

theorem fitsUnder_self (cap : Resource) : cap.fitsUnder cap = true :=
  fitsUnder_iff.2 fun _ => .inr (Nat.le_refl _)

/-- Clamping gives the greatest vector below a given one that the cap admits. -/
theorem le_clampTo_iff : r ≤ a.clampTo cap ↔ r ≤ a ∧ r.fitsUnder cap = true := by
  rw [le_iff, le_iff, fitsUnder_iff, ← forall_and]
  refine forall_congr' fun dim => ?_
  rw [get_clampTo]
  -- The cap is zero exactly where it names nothing, and there it asks nothing of `r`.
  split <;> omega

theorem clampTo_le (a cap : Resource) : a.clampTo cap ≤ a := (le_clampTo_iff.1 le_rfl).1

theorem clampTo_fitsUnder (a cap : Resource) : (a.clampTo cap).fitsUnder cap = true :=
  (le_clampTo_iff.1 le_rfl).2

theorem clampTo_mono (ab : a ≤ b) : a.clampTo cap ≤ b.clampTo cap :=
  le_clampTo_iff.2 ⟨(clampTo_le a cap).trans ab, clampTo_fitsUnder a cap⟩

theorem clampTo_eq_iff : a.clampTo cap = a ↔ a.fitsUnder cap = true := by
  constructor
  · intro same
    rw [← same]
    exact clampTo_fitsUnder a cap
  · intro admitted
    exact (clampTo_le a cap).antisymm (le_clampTo_iff.2 ⟨le_rfl, admitted⟩)

theorem clampTo_clampTo (a cap : Resource) : (a.clampTo cap).clampTo cap = a.clampTo cap :=
  clampTo_eq_iff.2 (clampTo_fitsUnder a cap)

/-- What was clamped before an addition need not have been. -/
theorem clampTo_add_clampTo (a b cap : Resource) :
    (a.clampTo cap + b).clampTo cap = (a + b).clampTo cap := by
  apply le_antisymm
  · exact clampTo_mono (Resource.add_le_add (clampTo_le a cap) le_rfl)
  · obtain ⟨below, admitted⟩ := le_clampTo_iff.1 (le_refl ((a + b).clampTo cap))
    -- Whatever the cap admits of the sum, it admits without `b`, and then it is below `a`.
    have left : (((a + b).clampTo cap).monus b).fitsUnder cap = true :=
      fitsUnder_of_get_le admitted (le_iff.1 (monus_le _ b))
    have rest : ((a + b).clampTo cap).monus b ≤ a.clampTo cap :=
      le_clampTo_iff.2 ⟨monus_le_iff.2 below, left⟩
    exact le_clampTo_iff.2 ⟨monus_le_iff.1 rest, admitted⟩

/-- A total that is clamped after every addition is the sum, clamped once. -/
theorem foldl_add_clampTo (l : List Resource) (a cap : Resource) :
    l.foldl (fun total b => (total + b).clampTo cap) (a.clampTo cap) =
      (l.foldl (· + ·) a).clampTo cap := by
  induction l generalizing a with
  | nil => rfl
  | cons b l ih => rw [List.foldl_cons, List.foldl_cons, clampTo_add_clampTo, ih]

/-- A total has reached a cap in every dimension that the cap names. -/
def AtCap (cap total : Resource) : Prop := ∀ dim ∈ cap.dims, total.get dim = cap.get dim

instance : Decidable (AtCap cap total) :=
  inferInstanceAs (Decidable (∀ dim ∈ cap.dims, total.get dim = cap.get dim))

/-- Of what a cap admits, the vectors at the cap are those in which the cap itself fits. -/
theorem atCap_iff_le (admitted : total.fitsUnder cap = true) : AtCap cap total ↔ cap ≤ total := by
  rw [le_iff]
  constructor
  · intro reached dim
    by_cases named : dim ∈ cap.dims
    · exact (reached dim named).ge
    · -- Where the cap names nothing, it is zero.
      rw [mem_dims] at named
      omega
  · intro le dim named
    have limited := mem_dims.1 named
    have := le dim
    have := fitsUnder_iff.1 admitted dim
    omega

theorem atCap_clampTo_iff : AtCap cap (a.clampTo cap) ↔ cap ≤ a := by
  rw [atCap_iff_le (clampTo_fitsUnder a cap), le_clampTo_iff]
  exact and_iff_left (fitsUnder_self cap)

/-- What is added at the cap is cut off again in every dimension that the cap names. -/
theorem AtCap.add (reached : AtCap cap (a.clampTo cap)) (b : Resource) :
    AtCap cap ((a.clampTo cap + b).clampTo cap) := by
  rw [atCap_iff_le (clampTo_fitsUnder a cap)] at reached
  exact atCap_clampTo_iff.2 (reached.trans (le_self_add _ b))

theorem AtCap.foldl (l : List Resource) (reached : AtCap cap (a.clampTo cap)) :
    AtCap cap (l.foldl (fun total b => (total + b).clampTo cap) (a.clampTo cap)) := by
  induction l generalizing a with
  | nil => exact reached
  | cons b l ih => exact ih (reached.add b)

/-- The laws of limits.  Fitting is a partial order that sums respect, with `meet` for greatest
lower bounds; it can be told from the smaller amounts, and from what is left of a difference.  A cap
admits the vectors that clamping leaves as they are.  Clamping gives less, keeps the order and is
done once after a sum or after each term of it, and a total at the cap, which is one in which the
cap fits, stays there. -/
theorem order_laws (a b c : Resource) :
    (a + b = b + a ∧ a + b + c = a + (b + c) ∧
      ∀ r s : Resource, a.fitsIn r = true → b.fitsIn s = true → (a + b).fitsIn (r + s) = true) ∧
    (a.fitsIn a = true ∧ (a.fitsIn b = true → b.fitsIn a = true → a = b) ∧
      (a.fitsIn b = true → b.fitsIn c = true → a.fitsIn c = true)) ∧
    ((a.meet b).fitsIn a = true ∧ (a.meet b).fitsIn b = true ∧
      ∀ r : Resource, r.fitsIn a = true → r.fitsIn b = true → r.fitsIn (a.meet b) = true) ∧
    ((a.fitsIn b = true ↔ a.meet b = a) ∧ (a.fitsIn b = true ↔ (a.monus b).isZero = true)) ∧
    (a.fitsUnder c = true ↔ a.clampTo c = a) ∧
    ((a.clampTo c).clampTo c = a.clampTo c ∧ (a.clampTo c).fitsIn a = true ∧
      (a.fitsIn b = true → (a.clampTo c).fitsIn (b.clampTo c) = true)) ∧
    ((a.clampTo c + b).clampTo c = (a + b).clampTo c ∧
      ∀ l : List Resource, l.foldl (fun total r => (total + r).clampTo c) (a.clampTo c) =
        (l.foldl (· + ·) a).clampTo c) ∧
    (AtCap c (a.clampTo c) ↔ c.fitsIn (a.clampTo c) = true) ∧
    (AtCap c (a.clampTo c) → AtCap c ((a.clampTo c + b).clampTo c) ∧
      ∀ l : List Resource,
        AtCap c (l.foldl (fun total r => (total + r).clampTo c) (a.clampTo c))) := by
  refine ⟨?sums, ?order, ?bounds, ?tests, ?admitted, ?clamping, ?clampedSums, ?reached, ?stays⟩
  case sums => exact ⟨a.add_comm b, a.add_assoc b c, fun r s ar bs => Resource.add_le_add ar bs⟩
  case order => exact ⟨le_refl a, fitsIn_antisymm, fitsIn_trans⟩
  case bounds => exact ⟨meet_fitsIn_left a b, meet_fitsIn_right a b, fun r => fitsIn_meet⟩
  case tests =>
    have smaller : a.meet b = a ↔ a ≤ b := inf_eq_left
    exact ⟨smaller.symm, isZero_monus_iff.symm⟩
  case admitted => exact clampTo_eq_iff.symm
  case clamping => exact ⟨a.clampTo_clampTo c, clampTo_le a c, clampTo_mono⟩
  case clampedSums => exact ⟨clampTo_add_clampTo a b c, fun l => foldl_add_clampTo l a c⟩
  case reached => exact atCap_iff_le (clampTo_fitsUnder a c)
  case stays => exact fun reached => ⟨reached.add b, fun l => reached.foldl l⟩

/-- Under a cap on memory alone, a total stays at the cap while its cores stop at `maxAmount`. -/
theorem order_laws_saturated :
    let few := ofMemoryCores 3 2
    let parts := ofMemoryCores 3 0 + ofMemoryCores 0 2
    let many := (ofMemoryCores 6 maxAmount).set "gpus" 1
    let cap := zero.set memoryDim 2
    (few.fitsIn parts = true ∧ parts.fitsIn few = true ∧ few.fitsIn many = true) ∧
      few = parts ∧ parts.fitsIn many = true ∧ few.fitsIn (parts.meet many) = true ∧
      (few + few).fitsIn (many + few) = true ∧ (many + few).cores = maxAmount ∧
      (few.clampTo cap).fitsIn (many.clampTo cap) = true ∧ AtCap cap (many.clampTo cap) ∧
      AtCap cap ((many.clampTo cap + few).clampTo cap) ∧
      AtCap cap ([parts, many].foldl (fun total r => (total + r).clampTo cap)
        (many.clampTo cap)) := by
  intro few parts many cap
  have facts : few.fitsIn parts = true ∧ parts.fitsIn few = true ∧ few.fitsIn few = true ∧
      few.fitsIn many = true ∧ AtCap cap (many.clampTo cap) ∧ (many + few).cores = maxAmount := by
    decide +kernel
  obtain ⟨fp, pf, ff, fm, reached, cores⟩ := facts
  obtain ⟨-, ⟨-, antisymmetric, -⟩, -⟩ := order_laws few parts cap
  obtain ⟨-, ⟨-, -, transitive⟩, -⟩ := order_laws parts few many
  obtain ⟨-, -, ⟨-, -, greatest⟩, -⟩ := order_laws parts many cap
  obtain ⟨⟨-, -, monotone⟩, -⟩ := order_laws few few cap
  obtain ⟨-, -, -, -, -, ⟨-, -, ordered⟩, -⟩ := order_laws few many cap
  obtain ⟨-, -, -, -, -, -, -, -, stays⟩ := order_laws many few cap
  obtain ⟨once, always⟩ := stays reached
  exact ⟨⟨fp, pf, fm⟩, antisymmetric fp pf, transitive pf fm, greatest few fp fm,
    monotone many few fm ff, cores, ordered fm, reached, once, always [parts, many]⟩

end FairShare.Resource
