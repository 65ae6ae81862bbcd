/-!
Tables from names to values, kept in strictly ascending order of their names.  The order is by
Unicode code point.  A table is determined by what it holds under each name (`Table.ext_get?`), and
each operation is described by what `get?` shows afterwards.
-/

namespace FairShare

/-- A finite map from names to values, in strictly ascending order of the names. -/
structure Table (α : Type) where
  entries : List (String × α)
  ascending : entries.Pairwise fun x y => x.1 < y.1
deriving DecidableEq

namespace Table

variable {α β : Type}

def empty : Table α := ⟨[], .nil⟩

instance : EmptyCollection (Table α) := ⟨empty⟩
instance : Inhabited (Table α) := ⟨empty⟩

/-- The names that have a value, in ascending order. -/
def names (t : Table α) : List String := t.entries.map Prod.fst

def values (t : Table α) : List α := t.entries.map Prod.snd

/-- The value under a name in a list of entries: that of the first entry of the name. -/
def find (name : String) : List (String × α) → Option α
  | [] => none
  | (k, v) :: rest => if k = name then some v else find name rest

def get? (t : Table α) (name : String) : Option α := find name t.entries

def contains (t : Table α) (name : String) : Bool := (t.get? name).isSome

/-- Puts an entry at its place in an ascending list, over an entry of the same name. -/
def place (name : String) (value : α) : List (String × α) → List (String × α)
  | [] => [(name, value)]
  | (k, v) :: rest =>
    if name < k then (name, value) :: (k, v) :: rest
    else if name = k then (name, value) :: rest
    else (k, v) :: place name value rest

theorem mem_place {name : String} {value : α} {l : List (String × α)} {e : String × α}
    (h : e ∈ place name value l) : e = (name, value) ∨ e ∈ l := by
  induction l with
  | nil => simpa [place] using h
  | cons x rest ih =>
    simp only [place] at h
    split at h
    · simpa using h
    · split at h
      · rcases List.mem_cons.1 h with h | h <;> simp [h]
      · rcases List.mem_cons.1 h with h | h
        · simp [h]
        · rcases ih h with h | h <;> simp [h]

theorem ascending_place (name : String) (value : α) {l : List (String × α)}
    (h : l.Pairwise fun x y => x.1 < y.1) :
    (place name value l).Pairwise fun x y => x.1 < y.1 := by
  induction l with
  | nil => simp [place]
  | cons x rest ih =>
    obtain ⟨hx, hrest⟩ := List.pairwise_cons.1 h
    simp only [place]
    split
    case isTrue hlt =>
      refine List.pairwise_cons.2 ⟨fun e he => ?_, h⟩
      rcases List.mem_cons.1 he with rfl | he
      · exact hlt
      · exact String.lt_trans hlt (hx e he)
    case isFalse hnlt =>
      split
      case isTrue heq => exact List.pairwise_cons.2 ⟨fun e he => heq ▸ hx e he, hrest⟩
      case isFalse hne =>
        refine List.pairwise_cons.2 ⟨fun e he => ?_, ih hrest⟩
        rcases mem_place he with rfl | he
        · exact Std.lt_of_le_of_ne (String.not_lt.1 hnlt) (Ne.symm hne)
        · exact hx e he

def insert (t : Table α) (name : String) (value : α) : Table α :=
  ⟨place name value t.entries, ascending_place name value t.ascending⟩

def filter (keep : String → α → Bool) (t : Table α) : Table α :=
  ⟨t.entries.filter fun e => keep e.1 e.2, t.ascending.filter _⟩

def erase (t : Table α) (name : String) : Table α := t.filter fun k _ => k ≠ name

/-- The last entry of a name counts. -/
def ofList (l : List (String × α)) : Table α :=
  l.foldl (fun t e => t.insert e.1 e.2) empty

/-- The table that holds `f name` under every listed name for which `f` gives a value. -/
def tabulate (f : String → Option α) : List String → Table α
  | [] => empty
  | name :: rest =>
    match f name with
    | some v => (tabulate f rest).insert name v
    | none => tabulate f rest

theorem find_eq_none {name : String} {l : List (String × α)} (h : ∀ e ∈ l, e.1 ≠ name) :
    find name l = none := by
  induction l with
  | nil => rfl
  | cons x rest ih =>
    simp only [find, if_neg (h x (by simp))]
    exact ih fun e he => h e (by simp [he])

theorem find_place (name key : String) (value : α) {l : List (String × α)}
    (h : l.Pairwise fun x y => x.1 < y.1) :
    find key (place name value l) = if key = name then some value else find key l := by
  induction l with
  | nil => by_cases hk : name = key <;> simp [place, find, hk, eq_comm]
  | cons x rest ih =>
    obtain ⟨hx, hrest⟩ := List.pairwise_cons.1 h
    simp only [place]
    split
    · by_cases hk : name = key <;> simp [find, hk, eq_comm]
    · split
      case isTrue heq =>
        subst heq
        by_cases hk : x.1 = key
        · simp [find, hk]
        · simp [find, hk, Ne.symm hk]
      case isFalse hne =>
        simp only [find, ih hrest]
        by_cases hk : x.1 = key
        · have : key ≠ name := fun hh => hne (by rw [← hh, hk])
          simp [hk, this]
        · simp [hk]

theorem mem_of_find {name : String} {value : α} {l : List (String × α)}
    (h : find name l = some value) : (name, value) ∈ l := by
  induction l with
  | nil => simp [find] at h
  | cons x rest ih =>
    simp only [find] at h
    split at h
    case isTrue hk =>
      cases h
      simp [← hk]
    case isFalse => simp [ih h]

theorem find_of_mem {name : String} {value : α} {l : List (String × α)}
    (hl : l.Pairwise fun x y => x.1 < y.1) (h : (name, value) ∈ l) :
    find name l = some value := by
  induction l with
  | nil => simp at h
  | cons x rest ih =>
    obtain ⟨hx, hrest⟩ := List.pairwise_cons.1 hl
    rcases List.mem_cons.1 h with rfl | h
    · simp [find]
    · have hne : x.1 ≠ name := fun hh => String.lt_irrefl name (hh ▸ hx (name, value) h)
      simp [find, hne, ih hrest h]

theorem get?_eq_some_iff {t : Table α} {name : String} {value : α} :
    t.get? name = some value ↔ (name, value) ∈ t.entries :=
  ⟨mem_of_find, find_of_mem t.ascending⟩

@[simp] theorem get?_empty (name : String) : (∅ : Table α).get? name = none := rfl

@[simp] theorem get?_insert (t : Table α) (name key : String) (value : α) :
    (t.insert name value).get? key = if key = name then some value else t.get? key :=
  find_place name key value t.ascending

theorem get?_filter (keep : String → α → Bool) (t : Table α) (name : String) :
    (t.filter keep).get? name = (t.get? name).filter (keep name) := by
  ext v
  rw [get?_eq_some_iff, Option.filter_eq_some_iff, get?_eq_some_iff]
  simp [filter]

@[simp] theorem get?_erase (t : Table α) (name key : String) :
    (t.erase name).get? key = if key = name then none else t.get? key := by
  rw [erase, get?_filter]
  by_cases h : key = name
  · simp [h]
  · cases t.get? key <;> simp [h]

theorem get?_tabulate (f : String → Option α) (l : List String) (name : String) :
    (tabulate f l).get? name = if name ∈ l then f name else none := by
  induction l with
  | nil => rfl
  | cons x rest ih =>
    simp only [tabulate]
    split
    case h_1 v hv =>
      by_cases hx : name = x
      · subst hx; simp [hv]
      · simp [ih, hx]
    case h_2 hn =>
      by_cases hx : name = x
      · subst hx
        simp [ih, hn]
      · simp [ih, hx]

theorem entries_ext {l m : List (String × α)} (hl : l.Pairwise fun x y => x.1 < y.1)
    (hm : m.Pairwise fun x y => x.1 < y.1) (h : ∀ e, e ∈ l ↔ e ∈ m) : l = m := by
  induction l generalizing m with
  | nil =>
    cases m with
    | nil => rfl
    | cons y m => exact absurd ((h y).2 (by simp)) (by simp)
  | cons x l ih =>
    cases m with
    | nil => exact absurd ((h x).1 (by simp)) (by simp)
    | cons y m =>
      obtain ⟨hx, hl'⟩ := List.pairwise_cons.1 hl
      obtain ⟨hy, hm'⟩ := List.pairwise_cons.1 hm
      have hxy : x = y := by
        rcases List.mem_cons.1 ((h x).1 (by simp)) with e | e
        · exact e
        · rcases List.mem_cons.1 ((h y).2 (by simp)) with e' | e'
          · exact e'.symm
          · exact absurd (String.lt_trans (hx y e') (hy x e)) (String.lt_irrefl _)
      subst hxy
      congr 1
      refine ih hl' hm' fun e => ?_
      have hne {k : List (String × α)} (hk : ∀ z ∈ k, x.1 < z.1) : e ∈ k → e ≠ x :=
        fun he hh => String.lt_irrefl _ (hh ▸ hk e he)
      constructor
      · intro he
        exact (List.mem_cons.1 ((h e).1 (by simp [he]))).resolve_left (hne hx he)
      · intro he
        exact (List.mem_cons.1 ((h e).2 (by simp [he]))).resolve_left (hne hy he)

/-- A table is determined by what it holds under each name. -/
theorem ext_get? {t u : Table α} (h : ∀ name, t.get? name = u.get? name) : t = u := by
  have : t.entries = u.entries := entries_ext t.ascending u.ascending fun ⟨k, v⟩ => by
    rw [← get?_eq_some_iff, ← get?_eq_some_iff, h]
  cases t
  cases u
  simp_all

end Table
end FairShare
