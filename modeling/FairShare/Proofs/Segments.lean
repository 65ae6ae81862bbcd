import FairShare.Proofs.Path

/-!
Paths as segments.  The dots of a name part it into segments, and its parent path is what remains
without the last of them.  A name is legal if its first segment is `root` and no segment is empty;
so a name below another one is legal if and only if the other one is and the last segment of the
name is not empty.
-/

namespace FairShare.Path

/-- How many dots a name has. -/
def dots (name : String) : Nat := name.toList.count '.'

/-- Splitting at dots is the splitting of the library. -/
theorem split_eq_splitOn (cs : List Char) : split cs = cs.splitOn '.' := by
  induction cs with
  | nil => rfl
  | cons c cs ih =>
    rw [split, ih, List.splitOn_cons_eq_if_modifyHead]
    by_cases hc : c = '.'
    · simp [hc]
    · obtain ⟨piece, pieces, h⟩ := List.exists_cons_of_ne_nil (List.splitOn_ne_nil '.' cs)
      simp [hc, h]

theorem split_ne_nil (cs : List Char) : split cs ≠ [] := by
  rw [split_eq_splitOn]
  exact List.splitOn_ne_nil _ _

theorem split_cons {c : Char} (hc : c ≠ '.') {cs piece : List Char} {pieces : List (List Char)}
    (h : split cs = piece :: pieces) : split (c :: cs) = (c :: piece) :: pieces := by
  rw [split, if_neg hc, h]

theorem split_of_no_dot {cs : List Char} (h : '.' ∉ cs) : split cs = [cs] := by
  rw [split_eq_splitOn]
  exact List.splitOn_eq_singleton h

theorem tail_of_no_dot {cs : List Char} (h : '.' ∉ cs) : tail cs = cs := by
  cases cs with
  | nil => rfl
  | cons c cs =>
    rw [List.mem_cons, not_or] at h
    rw [tail, if_neg h.2, if_neg (Ne.symm h.1)]

/-- A dot ends a segment, wherever it stands. -/
theorem split_append_dot (l rest : List Char) :
    split (l ++ '.' :: rest) = split l ++ split rest := by
  rw [split_eq_splitOn, split_eq_splitOn, split_eq_splitOn]
  exact List.splitOn_append_cons_self l rest

/-- The first segment ends where the text does or at a dot. -/
theorem head_split (cs : List Char) :
    ∃ l, (split cs).head? = some l ∧ (cs = l ∨ ∃ rest, cs = l ++ '.' :: rest) := by
  induction cs with
  | nil => exact ⟨[], rfl, .inl rfl⟩
  | cons c cs ih =>
    obtain ⟨l, hl, ends⟩ := ih
    by_cases hc : c = '.'
    · subst hc
      exact ⟨[], by simp [split], .inr ⟨cs, rfl⟩⟩
    · obtain ⟨piece, pieces, h⟩ := List.exists_cons_of_ne_nil (split_ne_nil cs)
      obtain rfl : piece = l := by simpa [h] using hl
      refine ⟨c :: piece, by rw [split_cons hc h, List.head?_cons], ?_⟩
      rcases ends with rfl | ⟨rest, rfl⟩
      · exact .inl rfl
      · exact .inr ⟨rest, rfl⟩

/-- A text with a dot is its longest cut, a dot and its tail. -/
theorem eq_append_tail {cs l : List Char} (h : (cuts cs).head? = some l) :
    cs = l ++ '.' :: tail cs ∧ '.' ∉ tail cs := by
  induction cs generalizing l with
  | nil => cases h
  | cons c cs ih =>
    -- There is a place to cut wherever there is a dot.
    have dotted : '.' ∈ cs ↔ cuts cs ≠ [] := by
      constructor
      · intro hd
        obtain ⟨before, rest, rfl⟩ := List.append_of_mem hd
        exact List.ne_nil_of_mem (mem_cuts.2 ⟨rest, rfl⟩)
      · intro hc
        obtain ⟨before, hb⟩ := List.exists_mem_of_ne_nil _ hc
        obtain ⟨rest, rfl⟩ := mem_cuts.1 hb
        simp
    rw [cuts] at h
    rw [tail]
    cases hcuts : cuts cs with
    | nil =>
      -- The dot, if there is one, is the first character.
      have none : '.' ∉ cs := by simpa [hcuts] using dotted
      rw [hcuts] at h
      split at h
      · next hc =>
        obtain rfl : l = [] := by simpa using h.symm
        rw [if_neg none, if_pos hc, hc]
        exact ⟨rfl, none⟩
      · cases h
    | cons first others =>
      have some : '.' ∈ cs := dotted.2 (by simp [hcuts])
      rw [hcuts] at h
      obtain rfl : l = c :: first := by simpa using h.symm
      obtain ⟨eq, plain⟩ := ih (l := first) (by rw [hcuts, List.head?_cons])
      rw [if_pos some]
      exact ⟨by rw [List.cons_append, ← eq], plain⟩

section

variable {name above : String}

theorem toList_of_parent? (h : parent? name = some above) :
    name.toList = above.toList ++ '.' :: (lastSegment name).toList ∧
      '.' ∉ (lastSegment name).toList := by
  obtain ⟨l, hl, rfl⟩ := Option.map_eq_some_iff.1 h
  rw [lastSegment, String.toList_ofList, String.toList_ofList]
  exact eq_append_tail hl

theorem dots_of_parent? (h : parent? name = some above) : dots name = dots above + 1 := by
  obtain ⟨eq, plain⟩ := toList_of_parent? h
  rw [dots, dots, eq, List.count_append, List.count_cons_self, List.count_eq_zero_of_not_mem plain]

/-- A name has one segment more than its parent path. -/
theorem segments_of_parent? (h : parent? name = some above) :
    segments name = segments above ++ [lastSegment name] := by
  obtain ⟨eq, plain⟩ := toList_of_parent? h
  rw [segments, eq, split_append_dot, split_of_no_dot plain, List.map_append, List.map_singleton,
    String.ofList_toList, segments]

/-- A name without a path above it has no dot. -/
theorem no_dot_of_parent? (h : parent? name = none) : '.' ∉ name.toList := by
  intro dot
  obtain ⟨before, rest, hname⟩ := List.append_of_mem dot
  have above : IsAbove (String.ofList before) name := ⟨rest, by rw [String.toList_ofList, hname]⟩
  obtain ⟨parent, hp⟩ := exists_parent? above
  rw [h] at hp
  cases hp

theorem lastSegment_mem_segments (name : String) : lastSegment name ∈ segments name := by
  cases hp : parent? name with
  | some above => simp [segments_of_parent? hp]
  | none =>
    have undotted := no_dot_of_parent? hp
    rw [segments, split_of_no_dot undotted, lastSegment, tail_of_no_dot undotted]
    simp

theorem segments_of_isAbove (h : IsAbove above name) : segments above <+: segments name := by
  obtain ⟨rest, h⟩ := h
  rw [segments, segments, h, split_append_dot, List.map_append]
  exact List.prefix_append _ _

theorem segments_ne_nil (name : String) : segments name ≠ [] := by
  rw [segments, ne_eq, List.map_eq_nil_iff]
  exact split_ne_nil _

/-- A name is rooted if its first segment is the root. -/
theorem isRooted_iff : isRooted name = true ↔ (segments name).head? = some root := by
  have head : (segments name).head? = some root ↔
      (split name.toList).head? = some root.toList := by
    rw [segments, List.head?_map, Option.map_eq_some_iff]
    constructor
    · rintro ⟨l, hl, h⟩
      rw [hl, ← h, String.toList_ofList]
    · intro h
      exact ⟨_, h, String.ofList_toList⟩
  rw [head, isRooted, Bool.or_eq_true, decide_eq_true_eq, List.isPrefixOf_iff_prefix]
  have plain : '.' ∉ root.toList := by decide
  constructor
  · rintro (rfl | ⟨rest, h⟩)
    · rw [split_of_no_dot plain, List.head?_cons]
    · rw [← h, List.append_assoc, List.singleton_append, split_append_dot, split_of_no_dot plain,
        List.singleton_append, List.head?_cons]
  · intro h
    obtain ⟨l, hl, ends⟩ := head_split name.toList
    obtain rfl := Option.some.inj (hl.symm.trans h)
    rcases ends with same | ⟨rest, longer⟩
    · exact .inl (String.toList_inj.1 same)
    · exact .inr ⟨rest, by rw [longer, List.append_assoc, List.singleton_append]⟩

/-- A name is legal if its first segment is the root and no segment is empty. -/
theorem check_eq_ok_iff :
    check name = .ok () ↔ (segments name).head? = some root ∧ "" ∉ segments name := by
  rw [← isRooted_iff, check]
  cases isRooted name <;> by_cases h : "" ∈ segments name <;> simp [h]

theorem lastSegment_of_check (checked : check name = .ok ()) : lastSegment name ≠ "" := fun empty =>
  (check_eq_ok_iff.1 checked).2 (empty ▸ lastSegment_mem_segments name)

/-- What lies above a legal name is legal. -/
theorem IsAbove.check (h : IsAbove above name) (checked : check name = .ok ()) :
    Path.check above = .ok () := by
  obtain ⟨first, full⟩ := check_eq_ok_iff.1 checked
  have sub := segments_of_isAbove h
  obtain ⟨s, others, eq⟩ := List.exists_cons_of_ne_nil (segments_ne_nil above)
  refine check_eq_ok_iff.2 ⟨?_, fun empty => full (sub.subset empty)⟩
  obtain ⟨more, hmore⟩ := sub
  rw [← hmore, eq, List.cons_append, List.head?_cons] at first
  rw [eq, List.head?_cons]
  exact first

/-- A name below a legal one is legal unless its last segment is empty. -/
theorem check_iff_of_parent? (h : parent? name = some above) (checked : check above = .ok ()) :
    check name = .ok () ↔ lastSegment name ≠ "" := by
  obtain ⟨first, full⟩ := check_eq_ok_iff.1 checked
  rw [check_eq_ok_iff, segments_of_parent? h, List.head?_append, first, List.mem_append,
    List.mem_singleton, not_or, Option.some_or]
  exact ⟨fun ⟨_, _, named⟩ => Ne.symm named, fun named => ⟨rfl, full, Ne.symm named⟩⟩

end

end FairShare.Path
