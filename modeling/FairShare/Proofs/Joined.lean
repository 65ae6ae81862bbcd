import Mathlib.Data.List.Induction
import FairShare.Proofs.Segments

/-!
Names as segments joined by dots.  The check accepts exactly the names that are joined from a route:
segments of which the first is the root and none is empty or has a dot inside.  The ancestors of
such a name are joined from the first segments of its route, from all of them down to the root
alone.
-/

namespace FairShare.Path

/-- The name that has the given segments. -/
def join (l : List String) : String := ".".intercalate l

/-- What legal names are joined from: the root and further segments, none of them empty and none
with a dot inside. -/
structure IsRoute (l : List String) : Prop where
  rooted : l.head? = some root
  named : ∀ s ∈ l, s ≠ ""
  plain : ∀ s ∈ l, '.' ∉ s.toList

theorem not_mem_of_mem_split {cs piece : List Char} (h : piece ∈ split cs) : '.' ∉ piece := by
  induction cs generalizing piece with
  | nil =>
    have empty : piece = [] := by simpa [split] using h
    simp [empty]
  | cons c cs ih =>
    by_cases hc : c = '.'
    · rw [split, if_pos hc, List.mem_cons] at h
      rcases h with rfl | h
      · simp
      · exact ih h
    · obtain ⟨first, others, hcs⟩ := List.exists_cons_of_ne_nil (split_ne_nil cs)
      rw [hcs] at ih
      rw [split_cons hc hcs, List.mem_cons] at h
      rcases h with rfl | h
      · -- The first segment grew by a character that is no dot.
        have short : '.' ∉ first := ih List.mem_cons_self
        simp [short, Ne.symm hc]
      · exact ih (List.mem_cons_of_mem _ h)

theorem toList_join (l : List String) :
    (join l).toList = List.intercalate ['.'] (l.map String.toList) :=
  String.toList_intercalate

/-- Every name is joined from its segments. -/
theorem join_segments (name : String) : join (segments name) = name := by
  rw [← String.toList_inj, toList_join, segments, List.map_map]
  have back : String.toList ∘ String.ofList = id := funext fun _ => String.toList_ofList
  rw [back, List.map_id, split_eq_splitOn, List.intercalate_splitOn]

theorem segments_join {l : List String} (plain : ∀ s ∈ l, '.' ∉ s.toList) (ne : l ≠ []) :
    segments (join l) = l := by
  have pieces : ∀ cs ∈ l.map String.toList, '.' ∉ cs := by simpa using plain
  rw [segments, toList_join, split_eq_splitOn, List.splitOn_intercalate _ pieces (by simpa using ne),
    List.map_map]
  have back : String.ofList ∘ String.toList = id := funext fun _ => String.ofList_toList
  rw [back, List.map_id]

theorem plain_segments (name : String) : ∀ s ∈ segments name, '.' ∉ s.toList := by
  intro s hs
  obtain ⟨piece, hp, rfl⟩ := List.mem_map.1 hs
  rw [String.toList_ofList]
  exact not_mem_of_mem_split hp

namespace IsRoute

variable {l : List String}

theorem ne_nil (route : IsRoute l) : l ≠ [] := by
  have rooted := route.rooted
  rintro rfl
  cases rooted

theorem segments_join (route : IsRoute l) : segments (join l) = l :=
  Path.segments_join route.plain route.ne_nil

end IsRoute

/-- The segments of a name are a route exactly if the name passes the check. -/
theorem isRoute_segments_iff {name : String} :
    IsRoute (segments name) ↔ check name = .ok () := by
  rw [check_eq_ok_iff]
  constructor
  · exact fun route => ⟨route.rooted, fun empty => route.named "" empty rfl⟩
  · intro ⟨rooted, named⟩
    exact ⟨rooted, fun s hs empty => named (empty ▸ hs), plain_segments name⟩

/-- The path above a name is joined from all of its segments but the last. -/
theorem parent?_eq_join (name : String) :
    parent? name =
      if 1 < (segments name).length then some (join (segments name).dropLast) else none := by
  cases h : parent? name with
  | some above =>
    -- What stands above has one segment less, and at least one.
    have longer := segments_of_parent? h
    have pos := List.length_pos_iff.2 (segments_ne_nil above)
    have two : 1 < (segments name).length := by
      rw [longer, List.length_append]
      exact Nat.lt_add_of_pos_left pos
    rw [if_pos two, longer, List.dropLast_concat, join_segments]
  | none =>
    rw [segments, split_of_no_dot (no_dot_of_parent? h)]
    rfl

theorem parent?_join {l : List String} (plain : ∀ s ∈ l, '.' ∉ s.toList) (ne : l ≠ []) :
    parent? (join l) = if 1 < l.length then some (join l.dropLast) else none := by
  rw [parent?_eq_join, segments_join plain ne]

/-- The ancestors of a joined name are joined from ever fewer of its segments. -/
theorem ancestors_join {l : List String} (plain : ∀ s ∈ l, '.' ∉ s.toList) (ne : l ≠ []) :
    ancestors (join l) = (List.range l.length).map fun i => join (l.take (l.length - i)) := by
  -- A name is followed by the ancestors of the path above it, so the induction takes off the last
  -- segment.
  induction l using List.reverseRecOn with
  | nil => exact absurd rfl ne
  | append_singleton l s ih =>
    have plain' : ∀ s ∈ l, '.' ∉ s.toList := fun t ht => plain t (List.mem_append_left _ ht)
    rw [ancestors_eq, parent?_join plain ne, List.length_append, List.length_singleton,
      List.range_succ_eq_map, List.map_cons, List.map_map, List.dropLast_concat]
    have whole : (l ++ [s]).take (l.length + 1 - 0) = l ++ [s] :=
      List.take_of_length_le (by simp)
    rw [whole]
    congr 1
    by_cases hl : l = []
    · subst hl
      rfl
    · have two : 1 < l.length + 1 := Nat.lt_add_of_pos_left (List.length_pos_iff.2 hl)
      rw [if_pos two, Option.map_some, Option.getD_some, ih plain' hl]
      apply List.map_congr_left
      intro i _
      have shorter : l.length + 1 - (i + 1) = l.length - i := Nat.add_sub_add_right _ 1 i
      rw [Function.comp_apply, Nat.succ_eq_add_one, shorter,
        List.take_append_of_le_length (Nat.sub_le _ _)]

/-- Each ancestor is followed by the path above it, and the last one has none. -/
theorem getElem?_ancestors_succ (name : String) (i : Nat) :
    (ancestors name)[i + 1]? = (ancestors name)[i]?.bind parent? := by
  induction i generalizing name with
  | zero =>
    rw [ancestors_eq name, List.getElem?_cons_succ, List.getElem?_cons_zero, Option.bind_some]
    cases parent? name with
    | none => rfl
    | some above => rfl
  | succ i ih =>
    rw [ancestors_eq name, List.getElem?_cons_succ, List.getElem?_cons_succ]
    cases parent? name with
    | none => rfl
    | some above => exact ih above

theorem getLast?_ancestors {l : List String} (route : IsRoute l) :
    (ancestors (join l)).getLast? = some root := by
  have pos := List.length_pos_iff.2 route.ne_nil
  have one : l.length - (l.length - 1) = 1 := by omega
  have first : l.take 1 = [root] := by
    rw [List.take_one, route.rooted]
    rfl
  rw [ancestors_join route.plain route.ne_nil, List.getLast?_map, List.getLast?_range,
    if_neg (Nat.ne_of_gt pos), Option.map_some, one, first]
  rfl

/-- The check accepts exactly the names that are joined from a route.  The ancestors of such a name
are joined from all segments of the route, then from one less each time; so they begin with the name
and end with the root, each is followed by the path above it, all of them pass the check, and those
above the name precede it. -/
theorem check_iff_join (name : String) :
    (check name = .ok () ↔ ∃ l, IsRoute l ∧ join l = name) ∧
      ∀ l, IsRoute l → join l = name →
        ancestors name = ((List.range l.length).map fun i => join (l.take (l.length - i))) ∧
          (ancestors name).head? = some name ∧ (ancestors name).getLast? = some root ∧
          (∀ i, (ancestors name)[i + 1]? = (ancestors name)[i]?.bind parent?) ∧
          (∀ above ∈ ancestors name, check above = .ok ()) ∧
          ∀ above ∈ (ancestors name).tail, above < name := by
  have legal {l : List String} (route : IsRoute l) (joined : join l = name) :
      check name = .ok () := by
    rw [← isRoute_segments_iff, ← joined, route.segments_join]
    exact route
  refine ⟨⟨fun checked => ?_, fun ⟨l, route, joined⟩ => legal route joined⟩, ?_⟩
  · exact ⟨segments name, isRoute_segments_iff.2 checked, join_segments name⟩
  · intro l route joined
    have checked := legal route joined
    refine ⟨?_, rfl, ?_, getElem?_ancestors_succ name, fun above h => ?_, fun above h => ?_⟩
    · rw [← joined]
      exact ancestors_join route.plain route.ne_nil
    · rw [← joined]
      exact getLast?_ancestors route
    · rcases mem_ancestors.1 h with rfl | lies
      · exact checked
      · exact lies.check checked
    · exact (mem_tail_ancestors.1 h).lt

/-- Segments may begin like the root and hold any character but a dot, also one that comes before
it. -/
theorem check_iff_join_hyphen :
    IsRoute ["root", "rooted", "a-é"] ∧ join ["root", "rooted", "a-é"] = "root.rooted.a-é" ∧
      check "root.rooted.a-é" = .ok () ∧
      ancestors "root.rooted.a-é" = ["root.rooted.a-é", "root.rooted", "root"] ∧
      ∀ above ∈ ["root.rooted", "root"], above < "root.rooted.a-é" := by
  have route : IsRoute ["root", "rooted", "a-é"] := ⟨rfl, by decide, by decide⟩
  have joined : join ["root", "rooted", "a-é"] = "root.rooted.a-é" := by decide
  obtain ⟨accepted, walk⟩ := check_iff_join "root.rooted.a-é"
  obtain ⟨chain, -, -, -, -, before⟩ := walk _ route joined
  have names : ((List.range 3).map fun i => join (["root", "rooted", "a-é"].take (3 - i))) =
      ["root.rooted.a-é", "root.rooted", "root"] := by decide
  rw [List.length_cons, List.length_cons, List.length_singleton, names] at chain
  rw [chain] at before
  exact ⟨route, joined, accepted.2 ⟨_, route, joined⟩, chain, before⟩

end FairShare.Path
