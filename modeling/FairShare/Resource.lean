import FairShare.Table

/-!
Quantities over named dimensions such as memory, cores or accelerators.  A vector keeps only the
dimensions in which it is not zero, so it is determined by its amounts (`Resource.ext_get`), and
every operation is given by the amount it leaves in each dimension.

There are two readings of a limit.  For `fitsIn` a dimension that the limit leaves out is limited
to zero; for the caps of `fitsUnder` and `clampTo` it is unlimited.
-/

namespace FairShare

/-- The largest amount of one dimension; sums stop here. -/
def maxAmount : Nat := 0xffffffffffffffff

/-- A quantity over named dimensions, without zero amounts. -/
structure Resource where
  amounts : Table Nat
  inRange : ∀ e ∈ amounts.entries, 0 < e.2 ∧ e.2 ≤ maxAmount
deriving DecidableEq

namespace Resource

/-- The dimension of memory, in megabytes. -/
def memoryDim : String := "memory-mb"

def coresDim : String := "vcores"

def zero : Resource := ⟨∅, by simp [Table.empty, EmptyCollection.emptyCollection]⟩

instance : Inhabited Resource := ⟨zero⟩

def get (r : Resource) (dim : String) : Nat := (r.amounts.get? dim).getD 0

/-- The dimensions with an amount, in ascending order. -/
def dims (r : Resource) : List String := r.amounts.names

/-- The dimensions and their amounts, in ascending order of the dimensions. -/
def toList (r : Resource) : List (String × Nat) := r.amounts.entries

/-- What is stored for an amount: nothing for zero, and never more than `maxAmount`. -/
def stored (amount : Nat) : Option Nat :=
  if amount = 0 then none else some (min amount maxAmount)

/-- The vector with amount `f d`, cut at `maxAmount`, in every listed dimension `d`. -/
def tabulate (dims : List String) (f : String → Nat) : Resource :=
  ⟨Table.tabulate (fun d => stored (f d)) dims, by
    intro e he
    have h := Table.get?_eq_some_iff.2 (show (e.1, e.2) ∈ _ from he)
    rw [Table.get?_tabulate] at h
    split at h
    · simp only [stored] at h
      split at h
      · cases h
      · simp only [Option.some.injEq] at h
        simp only [maxAmount] at h ⊢
        omega
    · cases h⟩

/-- The vector of a list of amounts; the last amount of a dimension counts. -/
def ofList (l : List (String × Nat)) : Resource :=
  tabulate (l.map Prod.fst) fun d => ((Table.ofList l).get? d).getD 0

def set (r : Resource) (dim : String) (amount : Nat) : Resource :=
  tabulate (dim :: r.dims) fun d => if d = dim then amount else r.get d

def ofMemoryCores (memory cores : Nat) : Resource := (zero.set memoryDim memory).set coresDim cores

def memory (r : Resource) : Nat := r.get memoryDim

def cores (r : Resource) : Nat := r.get coresDim

def isZero (r : Resource) : Bool := r.toList.isEmpty

/-- The sum in each dimension, at most `maxAmount`. -/
def add (a b : Resource) : Resource := tabulate (a.dims ++ b.dims) fun d => a.get d + b.get d

instance : Add Resource := ⟨add⟩

def sum (l : List Resource) : Resource := l.foldl (· + ·) zero

/-- The difference in each dimension, at least zero. -/
def monus (a b : Resource) : Resource := tabulate a.dims fun d => a.get d - b.get d

/-- The smaller amount in each dimension. -/
def meet (a b : Resource) : Resource := tabulate a.dims fun d => min (a.get d) (b.get d)

/-- Whether no dimension exceeds the limit, which is zero where the limit does not name it. -/
def fitsIn (a limit : Resource) : Bool := a.dims.all fun d => a.get d ≤ limit.get d

/-- The smaller amount in each dimension that the cap names, and the amount itself elsewhere. -/
def clampTo (a cap : Resource) : Resource :=
  tabulate a.dims fun d => if cap.get d = 0 then a.get d else min (a.get d) (cap.get d)

/-- Whether no dimension that the cap names exceeds the cap. -/
def fitsUnder (a cap : Resource) : Bool :=
  a.dims.all fun d => cap.get d = 0 || decide (a.get d ≤ cap.get d)

/-- The whole part of an amount times a factor, at most `maxAmount`. -/
def scaleAmount (factor : Float) (amount : Nat) : Nat :=
  -- The product is rounded once; the conversion back stops at `maxAmount`.
  (amount.toUInt64.toFloat * factor).toUInt64.toNat

/-- Every amount times a factor, rounded down; zero unless the factor is finite and positive. -/
def scale (a : Resource) (factor : Float) : Resource :=
  if factor.isFinite && 0.0 < factor then tabulate a.dims fun d => scaleAmount factor (a.get d)
  else zero

/-- The text of a vector, such as `<memory-mb:3, vcores:1>`. -/
def render (r : Resource) : String :=
  "<" ++ ", ".intercalate (r.toList.map fun e => e.1 ++ ":" ++ toString e.2) ++ ">"

theorem get_le (r : Resource) (dim : String) : r.get dim ≤ maxAmount := by
  unfold get
  cases h : r.amounts.get? dim with
  | none => simp
  | some v => exact (r.inRange _ (Table.get?_eq_some_iff.1 h)).2

theorem get?_amounts (r : Resource) (dim : String) : r.amounts.get? dim = stored (r.get dim) := by
  unfold get
  cases h : r.amounts.get? dim with
  | none => simp [stored]
  | some v =>
    obtain ⟨hpos, hle⟩ := r.inRange _ (Table.get?_eq_some_iff.1 h)
    simp only at hpos hle
    simp only [stored, Option.getD_some]
    rw [if_neg (by omega), Nat.min_eq_left hle]

/-- A vector is determined by its amounts. -/
theorem ext_get {a b : Resource} (h : ∀ dim, a.get dim = b.get dim) : a = b := by
  have : a.amounts = b.amounts := Table.ext_get? fun d => by rw [get?_amounts, get?_amounts, h]
  cases a
  cases b
  simp_all

theorem mem_dims {r : Resource} {dim : String} : dim ∈ r.dims ↔ 0 < r.get dim := by
  constructor
  · intro h
    obtain ⟨e, he, rfl⟩ := List.mem_map.1 h
    have hg := Table.get?_eq_some_iff.2 (show (e.1, e.2) ∈ _ from he)
    simpa [get, hg] using (r.inRange e he).1
  · intro h
    unfold get at h
    cases hg : r.amounts.get? dim with
    | none => simp [hg] at h
    | some v => exact List.mem_map.2 ⟨_, Table.get?_eq_some_iff.1 hg, rfl⟩

theorem get_tabulate (dims : List String) (f : String → Nat) (dim : String) :
    (tabulate dims f).get dim = if dim ∈ dims then min (f dim) maxAmount else 0 := by
  simp only [get, tabulate, Table.get?_tabulate, stored]
  split
  · split
    · next h => simp [h]
    · simp
  · simp

@[simp] theorem get_zero (dim : String) : zero.get dim = 0 := rfl

@[simp] theorem get_add (a b : Resource) (dim : String) :
    (a + b).get dim = min (a.get dim + b.get dim) maxAmount := by
  show (add a b).get dim = _
  simp only [add, get_tabulate, List.mem_append, mem_dims]
  split <;> omega

@[simp] theorem get_monus (a b : Resource) (dim : String) :
    (a.monus b).get dim = a.get dim - b.get dim := by
  have := a.get_le dim
  simp only [monus, get_tabulate, mem_dims]
  split <;> omega

@[simp] theorem get_meet (a b : Resource) (dim : String) :
    (a.meet b).get dim = min (a.get dim) (b.get dim) := by
  have := a.get_le dim
  simp only [meet, get_tabulate, mem_dims]
  split <;> omega

@[simp] theorem get_clampTo (a cap : Resource) (dim : String) :
    (a.clampTo cap).get dim =
      if cap.get dim = 0 then a.get dim else min (a.get dim) (cap.get dim) := by
  have := a.get_le dim
  simp only [clampTo, get_tabulate, mem_dims]
  split <;> split <;> omega

@[simp] theorem get_set (r : Resource) (name dim : String) (amount : Nat) :
    (r.set name amount).get dim = if dim = name then min amount maxAmount else r.get dim := by
  have := r.get_le dim
  simp only [set, get_tabulate, List.mem_cons, mem_dims]
  by_cases h : dim = name
  · simp [h]
  · simp only [h, if_false, false_or]
    split <;> omega

theorem get_scale (a : Resource) (factor : Float) (dim : String) :
    (a.scale factor).get dim =
      if factor.isFinite && 0.0 < factor && 0 < a.get dim then
        min (scaleAmount factor (a.get dim)) maxAmount
      else 0 := by
  unfold scale
  split
  · next h => simp [get_tabulate, mem_dims, h]
  · next h => simp [h]

theorem fitsIn_iff {a limit : Resource} :
    a.fitsIn limit = true ↔ ∀ dim, a.get dim ≤ limit.get dim := by
  simp only [fitsIn, List.all_eq_true, mem_dims, decide_eq_true_eq]
  refine ⟨fun h d => ?_, fun h d _ => h d⟩
  by_cases hd : 0 < a.get d
  · exact h d hd
  · omega

theorem fitsUnder_iff {a cap : Resource} :
    a.fitsUnder cap = true ↔ ∀ dim, cap.get dim = 0 ∨ a.get dim ≤ cap.get dim := by
  simp only [fitsUnder, List.all_eq_true, mem_dims, Bool.or_eq_true, decide_eq_true_eq]
  refine ⟨fun h d => ?_, fun h d _ => h d⟩
  by_cases hd : 0 < a.get d
  · exact h d hd
  · exact .inr (by omega)

theorem isZero_iff {a : Resource} : a.isZero = true ↔ ∀ dim, a.get dim = 0 := by
  rw [isZero, List.isEmpty_iff]
  constructor
  · intro h d
    have : d ∉ a.dims := by simp [dims, Table.names, show a.amounts.entries = [] from h]
    rw [mem_dims] at this
    omega
  · intro h
    refine List.eq_nil_iff_forall_not_mem.2 fun e he => ?_
    have : e.1 ∈ a.dims := List.mem_map_of_mem he
    rw [mem_dims, h] at this
    omega

end Resource
end FairShare
