import Mathlib.Data.List.Basic
import FairShare.Allocation

/-!
Paths as texts.  A path lies above another if a dot follows it there.  The ancestors of a name are
the name itself and all paths above it, so they are reached from parent to parent, and each of them
precedes the name.
-/

namespace FairShare.Path

/-- Whether a path lies above another: the other one goes on with a dot. -/
def IsAbove (above name : String) : Prop := ∃ rest, name.toList = above.toList ++ '.' :: rest

theorem lt_append (l : List Char) (c : Char) (rest : List Char) : l < l ++ c :: rest := by
  induction l with
  | nil => exact List.nil_lt_cons c rest
  | cons d l ih => exact List.cons_lt_cons_iff.2 (.inr ⟨rfl, ih⟩)

namespace IsAbove

variable {p q r : String}

theorem trans (pq : IsAbove p q) (qr : IsAbove q r) : IsAbove p r := by
  obtain ⟨u, hu⟩ := pq
  obtain ⟨v, hv⟩ := qr
  exact ⟨u ++ '.' :: v, by rw [hv, hu, List.append_assoc, List.cons_append]⟩

/-- What lies above a path precedes it, whichever characters other paths have for the dot. -/
theorem lt (pq : IsAbove p q) : p < q := by
  obtain ⟨rest, h⟩ := pq
  change p.toList < q.toList
  rw [h]
  exact lt_append _ _ _

end IsAbove

theorem mem_cuts {l cs : List Char} : l ∈ cuts cs ↔ ∃ rest, cs = l ++ '.' :: rest := by
  induction cs generalizing l with
  | nil => simp [cuts]
  | cons c cs ih =>
    rw [cuts, List.mem_append, List.mem_map]
    constructor
    · rintro (⟨m, hm, rfl⟩ | hl)
      · obtain ⟨rest, rfl⟩ := ih.1 hm
        exact ⟨rest, rfl⟩
      · split at hl
        · next hc =>
          obtain rfl := List.mem_singleton.1 hl
          exact ⟨cs, by rw [hc, List.nil_append]⟩
        · cases hl
    · rintro ⟨rest, h⟩
      cases l with
      | nil =>
        obtain ⟨rfl, rfl⟩ := List.cons.inj h
        exact .inr (by simp)
      | cons d l =>
        obtain ⟨rfl, h'⟩ := List.cons.inj h
        exact .inl ⟨l, ih.2 ⟨rest, h'⟩, rfl⟩

/-- The paths above a name are those before its dots. -/
theorem mem_tail_ancestors {above name : String} :
    above ∈ (ancestors name).tail ↔ IsAbove above name := by
  rw [ancestors, List.tail_cons, List.mem_map]
  constructor
  · rintro ⟨l, hl, rfl⟩
    obtain ⟨rest, h⟩ := mem_cuts.1 hl
    exact ⟨rest, by rw [String.toList_ofList, h]⟩
  · rintro ⟨rest, h⟩
    exact ⟨above.toList, mem_cuts.2 ⟨rest, h⟩, String.ofList_toList⟩

theorem mem_ancestors {above name : String} :
    above ∈ ancestors name ↔ above = name ∨ IsAbove above name := by
  rw [← mem_tail_ancestors]
  exact List.mem_cons

/-- The longest cut is followed by its own cuts. -/
theorem cuts_eq (cs : List Char) :
    cuts cs = ((cuts cs).head?.map fun l => l :: cuts l).getD [] := by
  induction cs with
  | nil => rfl
  | cons c cs ih =>
    rw [cuts]
    cases hcs : cuts cs with
    | nil => split <;> rfl
    | cons l rest =>
      rw [hcs] at ih
      have hrest : rest = cuts l := (List.cons.inj ih).2
      rw [List.map_cons, List.cons_append, List.head?_cons, Option.map_some, Option.getD_some, cuts,
        hrest]

/-- Ancestors are reached from parent to parent. -/
theorem ancestors_eq (name : String) :
    ancestors name = name :: ((parent? name).map ancestors).getD [] := by
  rw [ancestors, parent?, cuts_eq name.toList]
  cases (cuts name.toList).head? with
  | none => rfl
  | some l => simp [ancestors]

theorem isAbove_of_parent? {name parent : String} (h : parent? name = some parent) :
    IsAbove parent name := by
  rw [← mem_tail_ancestors, ancestors_eq, h]
  simp [ancestors]

theorem exists_parent? {above name : String} (h : IsAbove above name) :
    ∃ parent, parent? name = some parent := by
  rw [← mem_tail_ancestors, ancestors_eq] at h
  cases hp : parent? name with
  | none =>
    rw [hp] at h
    cases h
  | some parent => exact ⟨parent, rfl⟩

theorem not_isAbove_root {above : String} : ¬ IsAbove above root := by
  rintro ⟨rest, h⟩
  have dot : '.' ∈ root.toList := by rw [h]; simp
  exact absurd dot (by decide)

/-- A name that passes the check is the root or lies below it. -/
theorem isAbove_root_of_check {name : String} (checked : check name = .ok ()) :
    name = root ∨ IsAbove root name := by
  have rooted : isRooted name = true := by
    rw [check] at checked
    split at checked
    · cases checked
    · next h => simpa using h
  rw [isRooted, Bool.or_eq_true, decide_eq_true_eq, List.isPrefixOf_iff_prefix] at rooted
  apply rooted.imp_right
  rintro ⟨rest, h⟩
  exact ⟨rest, by rw [← h, List.append_assoc]; rfl⟩

/-- What lies above a name below the root is the root or lies below it. -/
theorem IsAbove.root_or_below {above name : String} (h : IsAbove above name)
    (below : IsAbove root name) : above = root ∨ IsAbove root above := by
  obtain ⟨u, hu⟩ := h
  obtain ⟨v, hv⟩ := below
  have same : above.toList ++ '.' :: u = root.toList ++ '.' :: v := hu.symm.trans hv
  rcases List.append_eq_append_iff.1 same with ⟨m, hm, hv⟩ | ⟨m, hm, hu⟩
  · -- A dot inside `root` there is none.
    cases m with
    | nil =>
      left
      exact String.toList_inj.1 (by rw [hm, List.append_nil])
    | cons c m =>
      obtain ⟨rfl, -⟩ := List.cons.inj hv
      exact absurd ⟨m, hm⟩ not_isAbove_root
  · cases m with
    | nil =>
      left
      exact String.toList_inj.1 (by rw [hm, List.append_nil])
    | cons c m =>
      obtain ⟨rfl, -⟩ := List.cons.inj hu
      exact .inr ⟨m, hm⟩

end FairShare.Path
