import FairShare.Proofs.Recoding

/-!
What is stored of a vector.  Each operation can be carried out on the stored amounts alone: a sum
takes in the amounts of the other side one by one, the other operations go through the amounts of
one side, and some of them leave out the zeros that arise while some do not look for them.  What an
operation gives stores just what comes out so.  Hence nothing that was calculated stores a zero, in
whatever way the operations were composed.
-/

namespace FairShare
namespace Table

variable {α β : Type}

def mapValues (f : String → α → β) (t : Table α) : Table β :=
  ⟨t.entries.map fun e => (e.1, f e.1 e.2), List.pairwise_map.2 t.ascending⟩

@[simp] theorem get?_mapValues (f : String → α → β) (t : Table α) (name : String) :
    (t.mapValues f).get? name = (t.get? name).map (f name) := by
  ext v
  rw [get?_eq_some_iff, Option.map_eq_some_iff]
  simp only [get?_eq_some_iff, mapValues, List.mem_map, Prod.mk.injEq]
  constructor
  · intro ⟨e, he, name, value⟩
    subst name
    exact ⟨e.2, he, value⟩
  · intro ⟨value, he, same⟩
    exact ⟨(name, value), he, rfl, same⟩

/-- What is stored under a name, zero if nothing is. -/
def amount (t : Table Nat) (dim : String) : Nat := (t.get? dim).getD 0

/-- Stores an amount; zero takes the entry away. -/
def store (t : Table Nat) (dim : String) (amount : Nat) : Table Nat :=
  if amount = 0 then t.erase dim else t.insert dim amount

/-- Adds amounts one by one, to what is stored by then. -/
def addAll (t : Table Nat) (given : List (String × Nat)) : Table Nat :=
  given.foldl (fun sum e => sum.insert e.1 (min (sum.amount e.1 + e.2) maxAmount)) t

/-- Changes every amount and leaves out those that become zero. -/
def reduce (t : Table Nat) (change : String → Nat → Nat) : Table Nat :=
  (t.mapValues change).filter fun _ amount => 0 < amount

/-- Limits the amounts that a cap names, and looks for no zeros. -/
def cap (t limits : Table Nat) : Table Nat :=
  t.mapValues fun dim amount => (limits.get? dim).elim amount (min amount)

theorem amount_insert (t : Table Nat) (name dim : String) (amount : Nat) :
    (t.insert name amount).amount dim = if dim = name then amount else t.amount dim := by
  rw [Table.amount, get?_insert]
  split <;> rfl

theorem get?_addAll (t : Table Nat) {given : List (String × Nat)}
    (distinct : (given.map Prod.fst).Nodup) (dim : String) :
    (t.addAll given).get? dim =
      match find dim given with
      | none => t.get? dim
      | some amount => some (min (t.amount dim + amount) maxAmount) := by
  induction given generalizing t with
  | nil => rfl
  | cons e rest ih =>
    obtain ⟨fresh, distinct⟩ := List.nodup_cons.1 distinct
    rw [addAll, List.foldl_cons, ← addAll, ih _ distinct, find]
    by_cases here : e.1 = dim
    · -- No later amount is for the dimension of the first one.
      have none : find dim rest = none :=
        find_eq_none fun d hd same => fresh (here ▸ same ▸ List.mem_map_of_mem hd)
      rw [none, if_pos here, get?_insert, if_pos here.symm, here]
    · rw [if_neg here, get?_insert, amount_insert, if_neg (Ne.symm here), if_neg (Ne.symm here)]

end Table

namespace Resource

variable {a b r : Resource}

theorem stored_of_le {amount : Nat} (le : amount ≤ maxAmount) :
    stored amount = if amount = 0 then none else some amount := by
  rw [stored, Nat.min_eq_left le]

/-- A vector stores its amounts, and nothing where they are zero. -/
theorem amounts_eq {t : Table Nat} (h : ∀ dim, t.get? dim = stored (r.get dim)) : r.amounts = t :=
  Table.ext_get? fun dim => by rw [get?_amounts, h]

theorem amounts_eq_reduce {change : String → Nat → Nat}
    (h : ∀ dim, r.get dim = if a.get dim = 0 then 0 else change dim (a.get dim)) :
    r.amounts = a.amounts.reduce change := by
  apply amounts_eq
  intro dim
  have le := r.get_le dim
  rw [Table.reduce, Table.get?_filter, Table.get?_mapValues, get?_amounts, stored_of_le le,
    stored_of_le (a.get_le dim), h]
  by_cases absent : a.get dim = 0
  · simp [absent]
  · by_cases gone : change dim (a.get dim) = 0
    · simp [absent, gone]
    · simp [absent, gone, Nat.pos_of_ne_zero]

theorem amounts_monus (a b : Resource) :
    (a.monus b).amounts = a.amounts.reduce fun dim x => x - b.get dim := by
  apply amounts_eq_reduce
  intro dim
  rw [get_monus]
  split <;> omega

theorem amounts_meet (a b : Resource) :
    (a.meet b).amounts = a.amounts.reduce fun dim x => min x (b.get dim) := by
  apply amounts_eq_reduce
  intro dim
  rw [get_meet]
  split <;> omega

theorem scaleAmount_le (factor : Float) (amount : Nat) : scaleAmount factor amount ≤ maxAmount :=
  Nat.le_of_lt_succ (UInt64.toNat_lt _)

theorem amounts_scale (a : Resource) (factor : Float) :
    (a.scale factor).amounts =
      if factor.isFinite && 0.0 < factor then a.amounts.reduce fun _ => scaleAmount factor
      else ∅ := by
  split
  case isTrue h =>
    apply amounts_eq_reduce
    intro dim
    have le := scaleAmount_le factor (a.get dim)
    rw [get_scale, h, Bool.true_and, Nat.min_eq_left le]
    by_cases absent : a.get dim = 0
    · simp [absent]
    · simp [absent, Nat.pos_of_ne_zero]
  case isFalse h =>
    rw [scale, if_neg h]
    rfl

/-- A cap without zeros makes none. -/
theorem amounts_clampTo (a limits : Resource) :
    (a.clampTo limits).amounts = a.amounts.cap limits.amounts := by
  apply amounts_eq
  intro dim
  rw [Table.cap, Table.get?_mapValues, get?_amounts, get?_amounts, stored_of_le (get_le _ dim),
    stored_of_le (get_le _ dim), stored_of_le (get_le _ dim), get_clampTo]
  by_cases absent : a.get dim = 0
  · simp [absent]
  · by_cases unlimited : limits.get dim = 0
    · simp [absent, unlimited]
    · have some : min (a.get dim) (limits.get dim) ≠ 0 := by omega
      simp [absent, unlimited, some]

theorem amounts_set (a : Resource) (dim : String) {amount : Nat} (le : amount ≤ maxAmount) :
    (a.set dim amount).amounts = a.amounts.store dim amount := by
  apply amounts_eq
  intro d
  rw [get_set, Nat.min_eq_left le, Table.store]
  by_cases none : amount = 0
  · rw [if_pos none, Table.get?_erase, none, get?_amounts]
    split <;> rfl
  · rw [if_neg none, Table.get?_insert, get?_amounts]
    split
    · rw [stored_of_le le, if_neg none]
    · rfl

theorem amounts_add (a b : Resource) : (a + b).amounts = a.amounts.addAll b.amounts.entries := by
  apply amounts_eq
  intro dim
  have distinct : (b.amounts.entries.map Prod.fst).Nodup :=
    List.pairwise_map.2 (b.amounts.ascending.imp String.ne_of_lt)
  have le : min (a.get dim + b.get dim) maxAmount ≤ maxAmount := Nat.min_le_right _ _
  have other : Table.find dim b.amounts.entries = stored (b.get dim) := b.get?_amounts dim
  -- A dimension is added to at most once, and what is added is not zero.
  rw [Table.get?_addAll _ distinct, other, get_add, stored_of_le le, stored_of_le (b.get_le dim)]
  by_cases absent : b.get dim = 0
  · rw [if_pos absent, absent, get?_amounts, stored_of_le (a.get_le dim), Nat.add_zero,
      Nat.min_eq_left (a.get_le dim)]
  · have some : min (a.get dim + b.get dim) maxAmount ≠ 0 := by simp [maxAmount]; omega
    rw [if_neg absent, if_neg some]
    rfl

theorem amounts_ofList {given : List (String × Nat)} (le : ∀ e ∈ given, e.2 ≤ maxAmount) :
    (ofList given).amounts = (Table.ofList given).filter fun _ amount => 0 < amount := by
  apply amounts_eq
  intro dim
  rw [Table.get?_filter, Table.get?_ofList, get_ofList]
  cases last : lastOf given dim with
  | none => rfl
  | some amount =>
    have le : amount ≤ maxAmount := le _ (Table.lastOf_eq_some last)
    rw [Option.getD_some, Nat.min_eq_left le, stored_of_le le]
    by_cases none : amount = 0
    · simp [none]
    · simp [none, Nat.pos_of_ne_zero]

end Resource

/-- A way to come by a vector, from amounts that are given, read or computed. -/
inductive Calculation where
  | zero
  | ofMemoryCores (memory cores : UInt64)
  | read (given : List (String × UInt64))
  | set (a : Calculation) (dim : String) (amount : UInt64)
  | add (a b : Calculation)
  | monus (a b : Calculation)
  | meet (a b : Calculation)
  | clampTo (a limits : Calculation)
  | scale (a : Calculation) (factor : Float)

namespace Calculation

/-- Amounts as they are given, by dimension. -/
def numbers (given : List (String × UInt64)) : List (String × Nat) :=
  given.map fun e => (e.1, e.2.toNat)

/-- The vector that comes out. -/
def vector : Calculation → Resource
  | zero => .zero
  | ofMemoryCores memory cores => .ofMemoryCores memory.toNat cores.toNat
  | read given => .ofList (numbers given)
  | set a dim amount => a.vector.set dim amount.toNat
  | add a b => a.vector + b.vector
  | monus a b => a.vector.monus b.vector
  | meet a b => a.vector.meet b.vector
  | clampTo a limits => a.vector.clampTo limits.vector
  | scale a factor => a.vector.scale factor

/-- What is stored when each operation goes through the amounts that are stored. -/
def table : Calculation → Table Nat
  | zero => ∅
  | ofMemoryCores memory cores =>
    ((∅ : Table Nat).store Resource.memoryDim memory.toNat).store Resource.coresDim cores.toNat
  | read given => (Table.ofList (numbers given)).filter fun _ amount => 0 < amount
  | set a dim amount => a.table.store dim amount.toNat
  | add a b => a.table.addAll b.table.entries
  | monus a b => a.table.reduce fun dim x => x - b.table.amount dim
  | meet a b => a.table.reduce fun dim x => min x (b.table.amount dim)
  | clampTo a limits => a.table.cap limits.table
  | scale a factor =>
    if factor.isFinite && 0.0 < factor then a.table.reduce fun _ => Resource.scaleAmount factor
    else ∅

theorem toNat_le (amount : UInt64) : amount.toNat ≤ maxAmount := Nat.le_of_lt_succ amount.toNat_lt

/-- A vector stores what the operations leave in store. -/
theorem amounts_vector (c : Calculation) : c.vector.amounts = c.table := by
  -- What the parts store is rewritten below, so that each operation acts on stored amounts alone.
  induction c with
  | zero => rfl
  | ofMemoryCores memory cores =>
    rw [vector, Resource.ofMemoryCores, Resource.amounts_set _ _ (toNat_le cores),
      Resource.amounts_set _ _ (toNat_le memory)]
    rfl
  | read given =>
    apply Resource.amounts_ofList
    intro e he
    obtain ⟨e, -, rfl⟩ := List.mem_map.1 he
    exact toNat_le e.2
  | set a dim amount iha => rw [vector, Resource.amounts_set _ _ (toNat_le amount), iha, table]
  | add a b iha ihb => rw [vector, Resource.amounts_add, iha, ihb, table]
  | monus a b iha ihb =>
    rw [vector, Resource.amounts_monus, iha, table, ← ihb]
    rfl
  | meet a b iha ihb =>
    rw [vector, Resource.amounts_meet, iha, table, ← ihb]
    rfl
  | clampTo a limits iha ihl => rw [vector, Resource.amounts_clampTo, iha, ihl, table]
  | scale a factor iha => rw [vector, Resource.amounts_scale, iha, table]

/-- What is read off an object of numbers is among what is calculated. -/
theorem exists_read {j : Json} {r : Resource} (h : Resource.decode? j = some r) :
    ∃ given, j = Json.record ((numbers given).map fun e => (e.1, Json.ofNat e.2)) ∧
      (read given).vector = r := by
  obtain ⟨given, rfl, le, rfl⟩ := Resource.decode?_eq_some.1 h
  have back : numbers (given.map fun e => (e.1, UInt64.ofNat e.2)) = given := calc
    numbers (given.map fun e => (e.1, UInt64.ofNat e.2)) = given.map id := by
      rw [numbers, List.map_map]
      apply List.map_congr_left
      intro e he
      exact Prod.ext rfl (UInt64.toNat_ofNat_of_lt' (Nat.lt_succ_of_le (le e he)))
    _ = given := List.map_id given
  exact ⟨_, by rw [back], congrArg Resource.ofList back⟩

/-- Vectors are canonical.  Whatever was calculated stores no zero; it is equal to another one, or
zero, if its amounts are; and every operation has the amounts that are to be expected, for
dimensions that one side, both or none of them store. -/
theorem canonical :
    (∀ c : Calculation, c.vector.amounts = c.table ∧ ∀ e ∈ c.table.entries, e.2 ≠ 0) ∧
      (∀ j r, Resource.decode? j = some r →
        ∃ given, j = Json.record ((numbers given).map fun e => (e.1, Json.ofNat e.2)) ∧
          (read given).vector = r) ∧
      (∀ c d : Calculation,
        (c.vector = d.vector ↔ ∀ dim, c.vector.get dim = d.vector.get dim) ∧
          (c.table = d.table ↔ ∀ dim, c.vector.get dim = d.vector.get dim)) ∧
      (∀ c : Calculation, c.vector.isZero = true ↔ ∀ dim, c.vector.get dim = 0) ∧
      ∀ (c d : Calculation) (dim : String),
        let x := c.vector.get dim
        let y := d.vector.get dim
        (c.add d).vector.get dim = min maxAmount (x + y) ∧
          (c.monus d).vector.get dim = x - y ∧ (c.meet d).vector.get dim = min x y ∧
          (0 < y → (c.clampTo d).vector.get dim = min x y) ∧
          (d.table.get? dim = none → (c.clampTo d).vector.get dim = x) := by
  refine ⟨fun c => ⟨c.amounts_vector, fun e he => ?_⟩, fun j r => exists_read, fun c d => ?_,
    fun c => Resource.isZero_iff, fun c d dim => ?_⟩
  · rw [← amounts_vector] at he
    exact Nat.ne_of_gt (c.vector.inRange e he).1
  · have vectors : c.vector = d.vector ↔ ∀ dim, c.vector.get dim = d.vector.get dim :=
      ⟨fun same dim => by rw [same], Resource.ext_get⟩
    have tables : c.table = d.table ↔ c.vector = d.vector := by
      rw [← amounts_vector, ← amounts_vector]
      constructor
      · intro same
        apply Resource.ext_get
        intro dim
        rw [Resource.get, same, Resource.get]
      · exact congrArg Resource.amounts
    exact ⟨vectors, tables.trans vectors⟩
  · intro x y
    refine ⟨?_, Resource.get_monus _ _ dim, Resource.get_meet _ _ dim, fun limited => ?_,
      fun unnamed => ?_⟩
    · rw [vector, Resource.get_add, Nat.min_comm]
    · rw [vector, Resource.get_clampTo, if_neg (Nat.ne_of_gt limited)]
    · -- Nothing is stored exactly where the amount is zero.
      have unlimited : y = 0 := by
        show (d.vector.amounts.get? dim).getD 0 = 0
        rw [amounts_vector, unnamed]
        rfl
      rw [vector, Resource.get_clampTo, if_pos unlimited]

/-- A cap whose cores were used up limits the memory of a sum only; of the amounts that were read
twice for a dimension, the zero counts. -/
theorem canonical_used_up :
    let a := (ofMemoryCores 6 3).add (read [("vcores", 3), ("memory-mb", 5), ("vcores", 0)])
    let limits := (ofMemoryCores 9 4).monus (ofMemoryCores 5 4)
    a.table.entries = [("memory-mb", 11), ("vcores", 3)] ∧
      limits.table.entries = [("memory-mb", 4)] ∧
      (a.clampTo limits).vector.get "memory-mb" = 4 ∧ (a.clampTo limits).vector.get "vcores" = 3 := by
  intro a limits
  have facts : a.table.entries = [("memory-mb", 11), ("vcores", 3)] ∧
      limits.table.entries = [("memory-mb", 4)] ∧ limits.table.get? "vcores" = none ∧
      a.vector.get "memory-mb" = 11 ∧ limits.vector.get "memory-mb" = 4 ∧
      a.vector.get "vcores" = 3 := by decide +kernel
  obtain ⟨sum, left, unnamed, memory, limit, cores⟩ := facts
  obtain ⟨-, -, -, -, laws⟩ := canonical
  obtain ⟨-, -, -, limited, -⟩ := laws a limits "memory-mb"
  obtain ⟨-, -, -, -, unlimited⟩ := laws a limits "vcores"
  refine ⟨sum, left, ?_, ?_⟩
  · rw [limited (by rw [limit]; decide), memory, limit]
    rfl
  · rw [unlimited unnamed, cores]

end Calculation
end FairShare
