import FairShare.Proofs.Built
import FairShare.Proofs.Recoding
import FairShare.Wire.Allocation

/-!
Allocations written and read again.  Whatever text an allocation was read from, the text that is
written of it is read as the same allocation and passes the same check, if the doubles in it read
back from what is written of them, and only then; the order in which the permissions of a queue are
written makes no difference.  Doubles that passed the check are finite, so each of them is written
as a numeral.
-/

namespace FairShare

section finite

open Float.Model (UnpackedFloat)

/-- What lies between finite numbers is finite. -/
theorem isFinite_of_le_of_le {a b x : UnpackedFloat} (ha : a.isFinite = true)
    (hb : b.isFinite = true) (lower : a.le x = true) (upper : x.le b = true) :
    x.isFinite = true := by
  cases x with
  | zero s => rfl
  | finite s m e pos => rfl
  | notANumber => cases b <;> cases upper
  | infinity s =>
    cases s with
    | positive =>
      cases b with
      | infinity s => cases hb
      | notANumber => cases hb
      | zero s => cases upper
      | finite s m e pos => cases upper
    | negative =>
      cases a with
      | infinity s => cases ha
      | notANumber => cases ha
      | zero s => cases lower
      | finite s m e pos => cases s <;> cases lower

theorem isFinite_of_isPart {x : Float} (part : isPart x = true) : x.isFinite = true := by
  obtain ⟨lower, upper⟩ : 0.0 ≤ x ∧ x ≤ 1.0 := by simpa [isPart] using part
  have zero : (0.0 : Float).toModel.unpack.isFinite = true := by decide +kernel
  have one : (1.0 : Float).toModel.unpack.isFinite = true := by decide +kernel
  have above : (0.0 : Float).toModel.unpack.le x.toModel.unpack = true := of_decide_eq_true lower
  have below : x.toModel.unpack.le (1.0 : Float).toModel.unpack = true := of_decide_eq_true upper
  exact isFinite_of_le_of_le zero one above below

end finite

open Json (asFloat? asString? asBool? asList? asOption? asTable? asOpenRecord? ofFloat ofString
  ofOption record faithful_string mapM_eq_some)

/-- Only one list of entries with the names of a table makes the table: where the names are in order
there is nothing to sort and nothing to drop. -/
theorem Table.eq_entries {α : Type} {t : Table α} {entries : List (String × α)}
    (names : entries.map Prod.fst = t.names) (made : ofList entries = t) : entries = t.entries := by
  have ascending : entries.Pairwise fun x y => x.1 < y.1 := by
    rw [← List.pairwise_map, names, Table.names, List.pairwise_map]
    exact t.ascending
  rw [← made, ofList_entries ⟨entries, ascending⟩]

namespace Json

/-- A double reads back from the text that is written of it. -/
def IsExact (x : Float) : Prop := readAs asFloat? (ofFloat x).write = some x

instance (x : Float) : Decidable (IsExact x) := inferInstanceAs (Decidable (_ = _))

theorem isExact_iff {x : Float} : IsExact x ↔ asFloat? (ofFloat x) = some x := by
  rw [IsExact, readAs, read?_write, Option.bind_some]

/-- A double that is not finite is written as null, which is not read as a double. -/
theorem asOption?_ofFloat {o : Option Float} :
    asOption? asFloat? (ofOption ofFloat o) = some o ↔ ∀ x ∈ o.toList, IsExact x := by
  cases o with
  | none => simp [ofOption, asOption?]
  | some x =>
    rw [Option.toList_some, List.forall_mem_singleton, isExact_iff, ofOption]
    by_cases null : ofFloat x = .null
    · simp [null, asOption?, asFloat?]
    · simp [asOption?_of_ne_null null]

theorem asList?_ofString (l : List String) :
    asList? asString? (.array (l.map ofString)) = some l :=
  faithful_string.list.reads fun _ _ => trivial

theorem asOpenRecord?_record {members : List (String × Json)}
    (distinct : (members.map Prod.fst).Nodup) :
    asOpenRecord? (members.map Prod.fst) (record members) = some (members.map fun m => some m.2) :=
  asRecord?_record distinct

section tables

variable {α : Type} {encode : String × α → Json} {decode? : Json → Option α} {t : Table α}

/-- The members of an object are read one by one, each under its name. -/
theorem asTable?_record_iff_entries {members : List (String × α)} :
    asTable? decode? (record (members.map fun e => (e.1, encode e))) = some t ↔
      ∃ entries, List.Forall₂ (fun e e' => e'.1 = e.1 ∧ decode? (encode e) = some e'.2) members
        entries ∧ Table.ofList entries = t := by
  have entry (e e' : String × α) :
      (do return (← some e.1, ← decode? (encode e))) = some e' ↔
        e'.1 = e.1 ∧ decode? (encode e) = some e'.2 := by
    cases h : decode? (encode e) <;> simp [Prod.ext_iff, eq_comm]
  rw [record, List.map_map, asTable?, Option.bind_eq_bind, Option.bind_eq_some_iff]
  simp only [mapM_eq_some, List.forall₂_map_left_iff, ← entry]
  exact exists_congr fun entries => and_congr_right fun _ => Option.some_inj

/-- A table reads back if its values do. -/
theorem asTable?_record :
    asTable? decode? (record (t.entries.map fun e => (e.1, encode e))) = some t ↔
      ∀ e ∈ t.entries, decode? (encode e) = some e.2 := by
  rw [asTable?_record_iff_entries]
  constructor
  · rintro ⟨entries, each, made⟩
    have names : t.names = entries.map Prod.fst := by
      rw [Table.names, ← List.forall₂_eq_eq_eq, List.forall₂_map_left_iff,
        List.forall₂_map_right_iff]
      exact each.imp fun _ _ h => h.1.symm
    rw [Table.eq_entries names.symm made, List.forall₂_same] at each
    exact fun e he => (each e he).2
  · intro back
    exact ⟨t.entries, List.forall₂_same.2 fun e he => ⟨rfl, back e he⟩, t.ofList_entries⟩

end tables

end Json

namespace QueueSettings

/-- The doubles of a queue's settings. -/
def doubles (s : QueueSettings) : List Float := s.weight :: s.threshold.toList

theorem decodeUsers?_encodeUsers (order : List Operation) (s : QueueSettings) :
    decodeUsers? (s.encodeUsers order) = some (order.filterMap fun o =>
      (s.users o).map fun users => (o, users)) := by
  have word (o : Operation) : Operation.ofWord? o.word = some o := by cases o <;> decide
  rw [encodeUsers, record, decodeUsers?, List.map_filterMap, mapM_eq_some]
  induction order with
  | nil => exact .nil
  | cons o rest ih =>
    cases users : s.users o with
    | none => simpa [users] using ih
    | some l => simpa [users, word, Json.asList?_ofString] using ih

/-- Wherever an operation stands in the order, its users are found. -/
theorem usersOf_filterMap {order : List Operation} {o : Operation} (listed : o ∈ order)
    (s : QueueSettings) :
    usersOf o (order.filterMap fun o => (s.users o).map fun users => (o, users)) = s.users o := by
  rw [usersOf]
  cases found : List.find? _ _ with
  | none =>
    cases users : s.users o with
    | none => rfl
    | some l =>
      have member : (o, l) ∈ order.filterMap fun o => (s.users o).map fun users => (o, users) :=
        List.mem_filterMap.2 ⟨o, listed, by rw [users]; rfl⟩
      have absent := List.find?_eq_none.1 found (o, l) (List.mem_reverse.2 member)
      exact absurd (decide_eq_true rfl) absent
  | some m =>
    -- All members for the operation have the same users, so it does not matter which one is found.
    have same := List.find?_some found
    rw [decide_eq_true_iff] at same
    obtain ⟨o', -, entry⟩ :=
      List.mem_filterMap.1 (List.mem_reverse.1 (List.mem_of_find?_eq_some found))
    obtain ⟨l, users, rfl⟩ := Option.map_eq_some_iff.1 entry
    rw [← same, users]
    rfl

/-- Of a queue's settings everything but the doubles is read back as it was. -/
theorem decode?_encodeIn {order : List Operation} (listed : ∀ o, o ∈ order) (s : QueueSettings) :
    decode? (s.encodeIn order) = (asFloat? (ofFloat s.weight)).bind fun weight =>
      (asOption? asFloat? (ofOption ofFloat s.threshold)).bind fun threshold =>
        some { s with weight, threshold } := by
  have distinct : memberNames.Nodup := by decide
  have read : asOpenRecord? memberNames (s.encodeIn order) =
      some [some (ofOption Resource.encode s.maxResources),
        some (ofOption Resource.encode s.minResources), some (ofFloat s.weight),
        some (ofOption ofString s.policy), some (s.encodeUsers order),
        some (ofOption ofFloat s.threshold), some (.bool s.parent)] :=
    Json.asOpenRecord?_record distinct
  have limit (o : Option Resource) :
      asOption? Resource.decode? (ofOption Resource.encode o) = some o :=
    (Resource.faithful.option fun _ null => by cases null).reads fun _ _ => trivial
  have policy : asOption? asString? (ofOption ofString s.policy) = some s.policy :=
    (faithful_string.option fun _ null => by cases null).reads fun _ _ => trivial
  have parent : asBool? (.bool s.parent) = some s.parent := rfl
  simp only [decode?, read, Option.bind_eq_bind, Option.bind_some, Option.map_some,
    Option.getD_some, decodeUsers?_encodeUsers, usersOf_filterMap (listed _), limit, policy, parent]
  rfl

theorem decode?_encodeIn_eq_some_iff {order : List Operation} (listed : ∀ o, o ∈ order)
    {s : QueueSettings} :
    decode? (s.encodeIn order) = some s ↔ ∀ x ∈ s.doubles, Json.IsExact x := by
  rw [decode?_encodeIn listed, doubles, List.forall_mem_cons, Json.isExact_iff,
    ← Json.asOption?_ofFloat]
  simp only [Option.bind_eq_some_iff]
  constructor
  · rintro ⟨weight, hw, threshold, ht, same⟩
    have sameWeight : weight = s.weight := congrArg QueueSettings.weight (Option.some.inj same)
    have sameThreshold : threshold = s.threshold :=
      congrArg QueueSettings.threshold (Option.some.inj same)
    exact ⟨sameWeight ▸ hw, sameThreshold ▸ ht⟩
  · rintro ⟨hw, ht⟩
    exact ⟨_, hw, _, ht, rfl⟩

theorem isFinite_of_check {s : QueueSettings} (checked : s.check = .ok ()) :
    ∀ x ∈ s.doubles, x.isFinite = true := by
  rw [check] at checked
  obtain ⟨weight, checked⟩ := ok_of_unless checked
  rw [doubles, List.forall_mem_cons]
  refine ⟨(Bool.and_eq_true_iff.1 weight).1, fun x hx => ?_⟩
  rw [Option.mem_toList] at hx
  rw [hx] at checked
  obtain ⟨part, -⟩ := ok_of_unless checked
  exact isFinite_of_isPart part

end QueueSettings

namespace Allocation

/-- The doubles of an allocation and of its queues. -/
def doubles (a : Allocation) : List Float :=
  a.defaultThreshold :: a.queues.values.flatMap QueueSettings.doubles

theorem decode?_encodeIn (order : String → List Operation) (a : Allocation) :
    decode? (a.encodeIn order) =
      (asFloat? (ofFloat a.defaultThreshold)).bind fun defaultThreshold =>
        (asTable? QueueSettings.decode? (record (a.queues.entries.map fun e =>
          (e.1, e.2.encodeIn (order e.1))))).bind fun queues =>
            some { a with defaultThreshold, queues } := by
  have distinct : memberNames.Nodup := by decide
  have read : asOpenRecord? memberNames (a.encodeIn order) =
      some [some (ofOption ofString a.defaultPolicy), some (ofFloat a.defaultThreshold),
        some (record (a.queues.entries.map fun e => (e.1, e.2.encodeIn (order e.1))))] :=
    Json.asOpenRecord?_record distinct
  have policy : asOption? asString? (ofOption ofString a.defaultPolicy) = some a.defaultPolicy :=
    (faithful_string.option fun _ null => by cases null).reads fun _ _ => trivial
  simp only [decode?, read, Option.bind_eq_bind, Option.bind_some, Option.map_some,
    Option.getD_some, policy]
  rfl

theorem decode?_encodeIn_eq_some_iff {order : String → List Operation}
    (listed : ∀ queue o, o ∈ order queue) {a : Allocation} :
    decode? (a.encodeIn order) = some a ↔ ∀ x ∈ a.doubles, Json.IsExact x := by
  have queues : (∀ x ∈ a.queues.values.flatMap QueueSettings.doubles, Json.IsExact x) ↔
      ∀ e ∈ a.queues.entries, QueueSettings.decode? (e.2.encodeIn (order e.1)) = some e.2 := by
    simp only [List.forall_mem_flatMap, Table.values, List.forall_mem_map,
      QueueSettings.decode?_encodeIn_eq_some_iff (listed _)]
  rw [decode?_encodeIn, doubles, List.forall_mem_cons, Json.isExact_iff, queues,
    ← Json.asTable?_record]
  simp only [Option.bind_eq_some_iff]
  constructor
  · rintro ⟨threshold, ht, table, hq, same⟩
    have sameThreshold : threshold = a.defaultThreshold :=
      congrArg Allocation.defaultThreshold (Option.some.inj same)
    have sameTable : table = a.queues := congrArg Allocation.queues (Option.some.inj same)
    exact ⟨sameThreshold ▸ ht, sameTable ▸ hq⟩
  · rintro ⟨ht, hq⟩
    exact ⟨_, ht, _, hq, rfl⟩

theorem isFinite_of_check {a : Allocation} (checked : a.check = .ok ()) :
    ∀ x ∈ a.doubles, x.isFinite = true := by
  rw [doubles, List.forall_mem_cons, List.forall_mem_flatMap]
  constructor
  · rw [check] at checked
    exact isFinite_of_isPart (ok_of_unless checked).1
  · intro s hs
    obtain ⟨e, he, rfl⟩ := List.mem_map.1 hs
    exact QueueSettings.isFinite_of_check (settings_check checked (Table.get?_eq_some_iff.2 he))

theorem read_eq_ok_iff {text : String} {a : Allocation} :
    read text = .ok a ↔ Json.readAs decode? text = some a ∧ a.check = .ok () := by
  rw [read, readUnchecked, ← Json.readAs]
  cases Json.readAs decode? text with
  | none =>
    constructor
    · intro h
      cases h
    · rintro ⟨h, -⟩
      cases h
  | some b =>
    rw [Option.some_inj]
    constructor
    · intro h
      cases checked : b.check with
      | error fault =>
        simp only [bind, Except.bind, checked] at h
        cases h
      | ok u =>
        simp only [bind, Except.bind, checked] at h
        cases h
        exact ⟨rfl, checked⟩
    · rintro ⟨rfl, checked⟩
      simp only [bind, Except.bind, checked]
      rfl

/-- An allocation that was accepted has finite doubles.  The text that is written of it is accepted
and read as the same allocation if its doubles read back, and only then; and so are the texts that
have the permissions of the queues in other orders. -/
theorem read_write_iff_isExact {text : String} {a : Allocation} (accepted : read text = .ok a) :
    (∀ x ∈ a.doubles, x.isFinite = true) ∧
      ((∀ x ∈ a.doubles, Json.IsExact x) ↔ read a.write = .ok a) ∧
      ∀ order : String → List Operation, (∀ queue, (order queue).Perm Operation.all) →
        ((∀ x ∈ a.doubles, Json.IsExact x) ↔ read (a.encodeIn order).write = .ok a) := by
  obtain ⟨-, checked⟩ := read_eq_ok_iff.1 accepted
  have orders (order : String → List Operation) (all : ∀ queue, (order queue).Perm Operation.all) :
      (∀ x ∈ a.doubles, Json.IsExact x) ↔ read (a.encodeIn order).write = .ok a := by
    have listed (queue : String) (o : Operation) : o ∈ order queue :=
      (all queue).mem_iff.2 (by cases o <;> decide)
    rw [read_eq_ok_iff, Json.readAs, Json.read?_write, Option.bind_some,
      ← decode?_encodeIn_eq_some_iff listed]
    exact (and_iff_left checked).symm
  exact ⟨isFinite_of_check checked, orders _ fun _ => .refl _, orders⟩

/-- A text that gives a queue twice, the second time as an array without its last member, with an
escape in a name and an amount of zero. -/
def unkemptText : String :=
  "\x7b\"queues\":\x7b\"root\":\x7b\"weight\":9\x7d,\"r\\u006fot\":" ++
    "[null,\x7b\"gpu\":0\x7d,1e-1,null," ++
      "\x7b\"submit_applications\":[\"*\"],\"administer_queue\":[]\x7d,0.75]\x7d\x7d"

/-- Its allocation is written in another way, in one of two texts, and read again from either
without change. -/
theorem read_write_iff_isExact_unkempt :
    ∃ a, read unkemptText = .ok a ∧ a.write ≠ unkemptText ∧ a.doubles = [0.5, 0.1, 0.75] ∧
      a.hasAccess "root" .submitApplications "bob" = true ∧
      a.hasAccess "root" .administerQueue "bob" = false ∧
      (∀ x ∈ a.doubles, x.isFinite = true) ∧ read a.write = .ok a ∧
      (a.encodeIn fun _ => Operation.all.reverse).write ≠ a.write ∧
      read (a.encodeIn fun _ => Operation.all.reverse).write = .ok a := by
  have facts : (read unkemptText).toOption.any fun a => a.write ≠ unkemptText ∧
      a.doubles = [0.5, 0.1, 0.75] ∧ a.hasAccess "root" .submitApplications "bob" ∧
      a.hasAccess "root" .administerQueue "bob" = false ∧
      (a.encodeIn fun _ => Operation.all.reverse).write ≠ a.write := by
    decide +kernel
  have exact : ∀ x ∈ [0.5, 0.1, 0.75], Json.IsExact x := by decide +kernel
  cases accepted : read unkemptText with
  | error e =>
    rw [accepted] at facts
    cases facts
  | ok a =>
    simp only [accepted, Except.toOption, Option.any_some, decide_eq_true_eq] at facts
    obtain ⟨other, doubles, submit, administer, two⟩ := facts
    obtain ⟨finite, back, backIn⟩ := read_write_iff_isExact accepted
    have reversed := backIn _ fun _ => Operation.all.reverse_perm
    exact ⟨a, rfl, other, doubles, submit, administer, finite, back.1 (doubles ▸ exact), two,
      reversed.1 (doubles ▸ exact)⟩

/-- Not every double reads back: these digits are divided by a power of ten that was rounded. -/
example : ¬ Json.IsExact 5.641232424577594e-278 := by decide +kernel

end Allocation
end FairShare
