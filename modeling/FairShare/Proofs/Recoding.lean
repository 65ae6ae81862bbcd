import Mathlib.Data.List.Forall2
import Mathlib.Data.List.Induction
import Mathlib.Logic.Equiv.Defs
import FairShare.Proofs.Written
import FairShare.Wire.Report

/-!
Writing and reading again.  A value whose numbers are within the ranges of their types reads back
from its text, and whatever a text is read as is such a value; so it can be written and read again
without change.  A quantity that is read keeps the last amount that a text gives for a dimension.
-/

namespace FairShare
namespace Json

variable {α β γ δ : Type}

theorem mapM_eq_some {f : α → Option β} {l : List α} {m : List β} :
    l.mapM f = some m ↔ List.Forall₂ (fun x y => f x = some y) l m := by
  induction l generalizing m with
  | nil =>
    rw [List.mapM_nil, List.forall₂_nil_left_iff]
    exact Option.some_inj.trans eq_comm
  | cons x l ih =>
    rw [List.mapM_cons, List.forall₂_cons_left_iff, Option.bind_eq_bind, Option.bind_eq_some_iff]
    refine exists_congr fun y => ?_
    rw [Option.bind_eq_bind, Option.bind_eq_some_iff]
    constructor
    · rintro ⟨hy, ys, hys, same⟩
      exact ⟨ys, hy, ih.1 hys, (Option.some.inj same).symm⟩
    · rintro ⟨ys, hy, hys, rfl⟩
      exact ⟨hy, ys, ih.2 hys, rfl⟩

theorem exists_of_mem_mapM {f : α → Option β} {l : List α} {m : List β} (h : l.mapM f = some m)
    {y : β} (hy : y ∈ m) : ∃ x, f x = some y := by
  have each := mapM_eq_some.1 h
  induction each with
  | nil => cases hy
  | @cons x _ _ _ first rest ih =>
    rcases List.mem_cons.1 hy with rfl | hy
    · exact ⟨x, first⟩
    · exact ih (mapM_eq_some.2 rest) hy

/-- Where each result tells what it was read from, so do all of them. -/
theorem mapM_eq_some_map {f : α → Option β} {source : β → α} {P : β → Prop}
    (each : ∀ x y, f x = some y ↔ x = source y ∧ P y) {l : List α} {m : List β} :
    l.mapM f = some m ↔ l = m.map source ∧ ∀ y ∈ m, P y := by
  rw [mapM_eq_some]
  constructor
  · intro h
    induction h with
    | nil => simp
    | cons first _ ih =>
      obtain ⟨rfl, holds⟩ := (each _ _).1 first
      obtain ⟨rfl, rest⟩ := ih
      exact ⟨rfl, List.forall_mem_cons.2 ⟨holds, rest⟩⟩
  · rintro ⟨rfl, holds⟩
    rw [List.forall₂_map_left_iff, List.forall₂_same]
    intro y hy
    exact (each _ _).2 ⟨rfl, holds y hy⟩

/-- Values in range read back from what is written of them, and only values in range are read. -/
structure Faithful (encode : α → Json) (decode? : Json → Option α) (InRange : α → Prop) : Prop where
  reads : ∀ {v}, InRange v → decode? (encode v) = some v
  bounded : ∀ {j v}, decode? j = some v → InRange v

theorem Faithful.congr {encode : α → Json} {decode? : Json → Option α} {P Q : α → Prop}
    (form : Faithful encode decode? P) (same : ∀ v, P v ↔ Q v) : Faithful encode decode? Q where
  reads ok := form.reads ((same _).2 ok)
  bounded h := (same _).1 (form.bounded h)

section values

theorem asNat?_eq_some {limit n : Nat} {j : Json} :
    asNat? limit j = some n ↔ j = ofNat n ∧ n ≤ limit := by
  constructor
  · intro h
    cases j with
    | number m =>
      obtain ⟨negative, whole, fraction, exponent⟩ := m
      rw [asNat?, Numeral.toNat?] at h
      split at h
      · cases h
      · next plain =>
        cases h
        obtain ⟨rfl, rfl, rfl, le⟩ :
            negative = false ∧ fraction = [] ∧ exponent = none ∧ whole ≤ limit := by
          simpa [and_assoc] using plain
        exact ⟨rfl, le⟩
    | _ => cases h
  · rintro ⟨rfl, le⟩
    simp [asNat?, ofNat, Numeral.ofNat, Numeral.toNat?, le]

theorem faithful_nat (limit : Nat) : Faithful ofNat (asNat? limit) (· ≤ limit) where
  reads le := asNat?_eq_some.2 ⟨rfl, le⟩
  bounded h := (asNat?_eq_some.1 h).2

theorem faithful_string : Faithful ofString asString? fun _ => True where
  reads _ := rfl
  bounded _ := trivial

theorem faithful_bool : Faithful .bool asBool? fun _ => True where
  reads _ := rfl
  bounded _ := trivial

variable {encode : α → Json} {decode? : Json → Option α} {InRange : α → Prop}

theorem Faithful.list (form : Faithful encode decode? InRange) :
    Faithful (fun l => .array (l.map encode)) (asList? decode?) fun l => ∀ v ∈ l, InRange v where
  reads {l} ok := by
    rw [asList?, mapM_eq_some, List.forall₂_map_left_iff, List.forall₂_same]
    exact fun v hv => form.reads (ok v hv)
  bounded {j l} h := by
    cases j with
    | array items =>
      intro v hv
      obtain ⟨item, read⟩ := exists_of_mem_mapM h hv
      exact form.bounded read
    | _ => cases h

theorem asOption?_of_ne_null {j : Json} (there : j ≠ .null) :
    asOption? decode? j = (decode? j).map some := by
  cases j with
  | null => exact absurd rfl there
  | _ => rfl

/-- An absent value is written as null, so no value may be written so. -/
theorem Faithful.option (form : Faithful encode decode? InRange) (there : ∀ v, encode v ≠ .null) :
    Faithful (ofOption encode) (asOption? decode?) fun o => ∀ v ∈ o, InRange v where
  reads {o} ok := by
    cases o with
    | none => rfl
    | some v =>
      rw [ofOption, asOption?_of_ne_null (there v), form.reads (ok v rfl)]
      rfl
  bounded {j o} h v hv := by
    cases hv
    by_cases there : j = .null
    · rw [there] at h
      cases h
    · rw [asOption?_of_ne_null there] at h
      obtain ⟨w, read, same⟩ := Option.map_eq_some_iff.1 h
      exact Option.some.inj same ▸ form.bounded read

end values

section records

variable {members : List (String × Json)} (distinct : (members.map Prod.fst).Nodup)

include distinct

theorem membersNamed_record {m : String × Json} (hm : m ∈ members) :
    membersNamed m.1 (members.map fun m => (some m.1, m.2)) = [m.2] := by
  induction members with
  | nil => cases hm
  | cons x rest ih =>
    obtain ⟨fresh, distinct⟩ := List.nodup_cons.1 distinct
    rw [membersNamed, List.map_cons, List.filter_cons]
    rcases List.mem_cons.1 hm with rfl | hm
    · -- No later member has the name.
      have others : (rest.map fun m => (some m.1, m.2)).filter (fun x => x.1 == some m.1) = [] := by
        rw [List.filter_eq_nil_iff, List.forall_mem_map]
        intro x hx same
        have same : x.1 = m.1 := by simpa using same
        exact fresh (same ▸ List.mem_map_of_mem hx)
      rw [others, if_pos (by simp)]
      rfl
    · have other : x.1 ≠ m.1 := by
        intro same
        exact fresh (same ▸ List.mem_map_of_mem hm)
      rw [if_neg (by simpa using other)]
      exact ih distinct hm

/-- The members of a record are found by their names. -/
theorem asRecord?_record :
    asRecord? (members.map Prod.fst) (record members) = some (members.map fun m => some m.2) := by
  have named : (members.map fun m => (some m.1, m.2)).all (fun m => m.1.isSome) = true := by
    simp
  rw [record, asRecord?, if_pos named, mapM_eq_some, List.forall₂_map_left_iff,
    List.forall₂_map_right_iff, List.forall₂_same]
  intro m hm
  rw [member?, membersNamed_record distinct hm]

end records

section pairs

variable {first second third : String} {e₁ : α → Json} {d₁ : Json → Option α} {r₁ : α → Prop}
  {e₂ : β → Json} {d₂ : Json → Option β} {r₂ : β → Prop}
  {e₃ : δ → Json} {d₃ : Json → Option δ} {r₃ : δ → Prop}

/-- Reads a record of two members. -/
def asPair? (first second : String) (d₁ : Json → Option α) (d₂ : Json → Option β)
    (parts : γ ≃ α × β) (j : Json) : Option γ := do
  let [some a, some b] ← asRecord? [first, second] j | none
  return parts.symm (← d₁ a, ← d₂ b)

/-- Reads a record of three members. -/
def asTriple? (first second third : String) (d₁ : Json → Option α) (d₂ : Json → Option β)
    (d₃ : Json → Option δ) (parts : γ ≃ α × β × δ) (j : Json) : Option γ := do
  let [some a, some b, some c] ← asRecord? [first, second, third] j | none
  return parts.symm (← d₁ a, ← d₂ b, ← d₃ c)

theorem Faithful.pair (form₁ : Faithful e₁ d₁ r₁) (form₂ : Faithful e₂ d₂ r₂)
    (parts : γ ≃ α × β) (distinct : [first, second].Nodup) :
    Faithful (fun v => record [(first, e₁ (parts v).1), (second, e₂ (parts v).2)])
      (asPair? first second d₁ d₂ parts) fun v => r₁ (parts v).1 ∧ r₂ (parts v).2 where
  reads {v} ok := by
    have read : asRecord? [first, second] (record [(first, e₁ (parts v).1),
        (second, e₂ (parts v).2)]) = some [some (e₁ (parts v).1), some (e₂ (parts v).2)] :=
      asRecord?_record distinct
    have back₁ := form₁.reads ok.1
    have back₂ := form₂.reads ok.2
    simp only [asPair?, read, back₁, back₂, Option.bind_eq_bind, Option.bind_some]
    exact congrArg some (parts.symm_apply_apply v)
  bounded {j v} h := by
    simp only [asPair?, Option.bind_eq_bind, Option.bind_eq_some_iff] at h
    obtain ⟨members, -, h⟩ := h
    split at h
    · simp only [Option.bind_eq_some_iff] at h
      obtain ⟨a, ha, b, hb, same⟩ := h
      cases same
      simpa using ⟨form₁.bounded ha, form₂.bounded hb⟩
    · cases h

theorem Faithful.triple (form₁ : Faithful e₁ d₁ r₁) (form₂ : Faithful e₂ d₂ r₂)
    (form₃ : Faithful e₃ d₃ r₃) (parts : γ ≃ α × β × δ)
    (distinct : [first, second, third].Nodup) :
    Faithful
      (fun v => record [(first, e₁ (parts v).1), (second, e₂ (parts v).2.1),
        (third, e₃ (parts v).2.2)])
      (asTriple? first second third d₁ d₂ d₃ parts)
      fun v => r₁ (parts v).1 ∧ r₂ (parts v).2.1 ∧ r₃ (parts v).2.2 where
  reads {v} ok := by
    have read : asRecord? [first, second, third] (record [(first, e₁ (parts v).1),
        (second, e₂ (parts v).2.1), (third, e₃ (parts v).2.2)]) =
          some [some (e₁ (parts v).1), some (e₂ (parts v).2.1), some (e₃ (parts v).2.2)] :=
      asRecord?_record distinct
    have back₁ := form₁.reads ok.1
    have back₂ := form₂.reads ok.2.1
    have back₃ := form₃.reads ok.2.2
    simp only [asTriple?, read, back₁, back₂, back₃, Option.bind_eq_bind, Option.bind_some]
    exact congrArg some (parts.symm_apply_apply v)
  bounded {j v} h := by
    simp only [asTriple?, Option.bind_eq_bind, Option.bind_eq_some_iff] at h
    obtain ⟨members, -, h⟩ := h
    split at h
    · simp only [Option.bind_eq_some_iff] at h
      obtain ⟨a, ha, b, hb, c, hc, same⟩ := h
      cases same
      simpa using ⟨form₁.bounded ha, form₂.bounded hb, form₃.bounded hc⟩
    · cases h

end pairs

end Json

/-- The value that a list of entries gives for a name last. -/
def lastOf {α : Type} (entries : List (String × α)) (name : String) : Option α :=
  (entries.reverse.find? fun e => e.1 = name).map Prod.snd

namespace Table

variable {α : Type}

theorem get?_ofList (entries : List (String × α)) (name : String) :
    (ofList entries).get? name = lastOf entries name := by
  induction entries using List.reverseRecOn with
  | nil => rfl
  | append_singleton entries e ih =>
    have step : ofList (entries ++ [e]) = (ofList entries).insert e.1 e.2 := by
      rw [ofList, List.foldl_append]
      rfl
    rw [step, get?_insert, ih, lastOf, lastOf, List.reverse_append, List.reverse_singleton,
      List.singleton_append, List.find?_cons]
    by_cases same : name = e.1
    · simp [same]
    · simp [same, Ne.symm same]

theorem lastOf_eq_some {entries : List (String × α)} {name : String} {value : α}
    (h : lastOf entries name = some value) : (name, value) ∈ entries := by
  obtain ⟨e, found, rfl⟩ := Option.map_eq_some_iff.1 h
  have named : e.1 = name := by simpa using List.find?_some found
  rw [← named]
  exact List.mem_reverse.1 (List.mem_of_find?_eq_some found)

/-- The entries of a table make the table. -/
theorem ofList_entries (t : Table α) : ofList t.entries = t := by
  apply ext_get?
  intro name
  rw [get?_ofList]
  cases h : lastOf t.entries name with
  | some value => exact (get?_eq_some_iff.2 (lastOf_eq_some h)).symm
  | none =>
    cases known : t.get? name with
    | none => rfl
    | some value =>
      -- An entry of the name would be found from the back as well.
      have entry := List.mem_reverse.2 (get?_eq_some_iff.1 known)
      rw [lastOf, Option.map_eq_none_iff, List.find?_eq_none] at h
      exact absurd (decide_eq_true rfl) (h _ entry)

end Table

open Json (Faithful faithful_nat faithful_string faithful_bool asRecord? asWord? ofNat ofOption)

/-- The largest number of 64 bits. -/
def maxWord : Nat := 0xffffffffffffffff

namespace Resource

theorem get_ofList (given : List (String × Nat)) (dim : String) :
    (ofList given).get dim = min ((lastOf given dim).getD 0) maxAmount := by
  rw [ofList, get_tabulate, Table.get?_ofList]
  split
  · rfl
  · next absent =>
    cases h : lastOf given dim with
    | none => rfl
    | some amount => exact absurd (List.mem_map_of_mem (Table.lastOf_eq_some h)) absent

/-- Quantities are read off objects of numbers. -/
theorem decode?_eq_some {j : Json} {r : Resource} :
    decode? j = some r ↔ ∃ given : List (String × Nat),
      j = Json.record (given.map fun e => (e.1, Json.ofNat e.2)) ∧
        (∀ e ∈ given, e.2 ≤ maxWord) ∧ ofList given = r := by
  -- The amounts go through a table first, which keeps the last of each name already.
  have again (given : List (String × Nat)) :
      ofList (Table.ofList given).entries = ofList given := by
    apply ext_get
    intro dim
    rw [get_ofList, get_ofList, ← Table.get?_ofList, Table.ofList_entries, Table.get?_ofList]
  have entries (members : List (Option String × Json)) (given : List (String × Nat)) :
      (members.mapM fun m => do return (← m.1, ← Json.asWord? m.2)) = some given ↔
        members = (given.map fun e => (some e.1, Json.ofNat e.2)) ∧ ∀ e ∈ given, e.2 ≤ maxWord := by
    apply Json.mapM_eq_some_map
    rintro ⟨name, value⟩ ⟨dim, amount⟩
    constructor
    · intro h
      obtain ⟨k, named, h⟩ := Option.bind_eq_some_iff.1 h
      obtain ⟨n, read, same⟩ := Option.bind_eq_some_iff.1 h
      cases same
      obtain ⟨made, le⟩ := Json.asNat?_eq_some.1 read
      exact ⟨Prod.ext named made, le⟩
    · rintro ⟨same, le⟩
      cases same
      refine Option.bind_eq_some_iff.2 ⟨dim, rfl, Option.bind_eq_some_iff.2 ⟨amount, ?_, rfl⟩⟩
      exact Json.asNat?_eq_some.2 ⟨rfl, le⟩
  constructor
  · intro h
    cases j with
    | object members =>
      obtain ⟨t, read, rfl⟩ := Option.map_eq_some_iff.1 h
      obtain ⟨given, parsed, made⟩ := Option.bind_eq_some_iff.1 read
      obtain ⟨rfl, small⟩ := (entries members given).1 parsed
      obtain rfl := Option.some.inj made
      refine ⟨given, ?_, small, (again given).symm⟩
      rw [Json.record, List.map_map]
      rfl
    | _ => cases h
  · rintro ⟨given, rfl, small, rfl⟩
    have parsed := (entries _ given).2 ⟨rfl, small⟩
    rw [Json.record, List.map_map]
    refine Option.map_eq_some_iff.2 ⟨Table.ofList given, ?_, again given⟩
    exact Option.bind_eq_some_iff.2 ⟨given, parsed, rfl⟩

theorem faithful : Faithful encode decode? fun _ => True where
  reads {r} _ := by
    refine decode?_eq_some.2 ⟨r.toList, rfl, fun e he => (r.inRange e he).2, ?_⟩
    apply ext_get
    intro dim
    rw [get_ofList, ← Table.get?_ofList, toList, Table.ofList_entries]
    exact Nat.min_eq_left (r.get_le dim)
  bounded _ := trivial

end Resource

namespace ApplicationId

def InRange (a : ApplicationId) : Prop := a.number ≤ maxWord

theorem faithful : Faithful encode decode? InRange where
  reads {a} ok := by
    have back : Json.asWord? (Json.ofNat a.number) = some a.number := (faithful_nat _).reads ok
    rw [encode, decode?, back, Option.map_some]
  bounded h := by
    obtain ⟨n, read, rfl⟩ := Option.map_eq_some_iff.1 h
    exact (faithful_nat _).bounded read

end ApplicationId

namespace AttemptId

def parts : AttemptId ≃ ApplicationId × Nat :=
  ⟨fun a => (a.application, a.attempt), fun p => ⟨p.1, p.2⟩, fun _ => rfl, fun _ => rfl⟩

def InRange (a : AttemptId) : Prop := a.application.InRange ∧ a.attempt ≤ 0xffffffff

theorem faithful : Faithful encode decode? InRange :=
  ApplicationId.faithful.pair (faithful_nat _) parts (by decide)

end AttemptId

namespace ContainerId

def parts : ContainerId ≃ AttemptId × Nat :=
  ⟨fun c => (c.attempt, c.sequence), fun p => ⟨p.1, p.2⟩, fun _ => rfl, fun _ => rfl⟩

def InRange (c : ContainerId) : Prop := c.attempt.InRange ∧ c.sequence ≤ maxWord

theorem faithful : Faithful encode decode? InRange :=
  AttemptId.faithful.pair (faithful_nat _) parts (by decide)

end ContainerId

theorem Operation.faithful : Faithful encode decode? fun _ => True where
  reads {o} _ := by cases o <;> rfl
  bounded _ := trivial

namespace Victim

def parts : Victim ≃ ContainerId × String × Resource :=
  ⟨fun v => (v.container, v.queue, v.resource), fun p => ⟨p.1, p.2.1, p.2.2⟩, fun _ => rfl,
    fun _ => rfl⟩

def InRange (v : Victim) : Prop := v.container.InRange

theorem faithful : Faithful encode decode? InRange :=
  (ContainerId.faithful.triple faithful_string Resource.faithful parts (by decide)).congr
    fun _ => by simp [InRange, parts]

end Victim

namespace Pacing

def parts : Pacing ≃ Nat × Nat :=
  ⟨fun p => (p.atMinShare, p.atFairShare), fun p => ⟨p.1, p.2⟩, fun _ => rfl, fun _ => rfl⟩

def InRange (p : Pacing) : Prop := p.atMinShare ≤ maxTime ∧ p.atFairShare ≤ maxTime

theorem faithful : Faithful encode decode? InRange :=
  (faithful_nat _).pair (faithful_nat _) parts (by decide)

end Pacing

namespace Permission

def parts : Permission ≃ String × List Operation :=
  ⟨fun p => (p.queue, p.operations), fun p => ⟨p.1, p.2⟩, fun _ => rfl, fun _ => rfl⟩

theorem faithful : Faithful encode decode? fun _ => True :=
  (faithful_string.pair Operation.faithful.list parts (by decide)).congr fun _ => by simp

end Permission

namespace Listing

def parts : Listing ≃ String × Nat × Bool :=
  ⟨fun l => (l.name, l.depth, l.composite), fun p => ⟨p.1, p.2.1, p.2.2⟩, fun _ => rfl,
    fun _ => rfl⟩

def InRange (l : Listing) : Prop := l.depth ≤ maxWord

theorem faithful : Faithful encode decode? InRange :=
  (faithful_string.triple (faithful_nat maxWord) faithful_bool parts (by decide)).congr
    fun _ => by simp [InRange, parts]

end Listing

namespace Health

def parts : Health ≃ Bool × Nat :=
  ⟨fun h => (h.ok, h.queues), fun p => ⟨p.1, p.2⟩, fun _ => rfl, fun _ => rfl⟩

def InRange (h : Health) : Prop := h.queues ≤ maxWord

theorem faithful : Faithful encode decode? InRange :=
  (faithful_bool.pair (faithful_nat maxWord) parts (by decide)).congr
    fun _ => by simp [InRange, parts]

end Health

namespace Placement

def parts : Placement ≃ String × Nat × Resource :=
  ⟨fun p => (p.machine, p.containers, p.resource), fun p => ⟨p.1, p.2.1, p.2.2⟩, fun _ => rfl,
    fun _ => rfl⟩

def InRange (p : Placement) : Prop := p.containers ≤ maxWord

theorem faithful : Faithful encode decode? InRange :=
  (faithful_string.triple (faithful_nat maxWord) Resource.faithful parts (by decide)).congr
    fun _ => by simp [InRange, parts]

end Placement

namespace CycleReport

structure InRange (r : CycleReport) : Prop where
  cycle : r.cycle ≤ maxWord
  placements : ∀ p ∈ r.placements, p.InRange
  victim : ∀ v ∈ r.victim, v.InRange

/-- The victim is the one member that a text may leave out. -/
theorem faithful : Faithful encode decode? InRange where
  reads {r} ok := by
    have distinct : ["cycle", "demand", "assignments", "preemption"].Nodup := by decide
    have read : asRecord? ["cycle", "demand", "assignments", "preemption"] r.encode =
        some [some (ofNat r.cycle), some r.demand.encode,
          some (.array (r.placements.map Placement.encode)),
          some (ofOption Victim.encode r.victim)] :=
      Json.asRecord?_record distinct
    have cycle : asWord? (ofNat r.cycle) = some r.cycle := (faithful_nat _).reads ok.cycle
    have demand := Resource.faithful.reads (v := r.demand) trivial
    have placements := Placement.faithful.list.reads ok.placements
    -- No victim is written as null, and a victim as an object.
    have victim := (Victim.faithful.option fun _ null => by cases null).reads ok.victim
    simp only [decode?, read, Option.bind_eq_bind, Option.bind_some, Option.getD_some, cycle,
      demand, placements, victim]
    rfl
  bounded {j r} h := by
    simp only [decode?, Option.bind_eq_bind, Option.bind_eq_some_iff] at h
    obtain ⟨members, -, h⟩ := h
    split at h
    · simp only [Option.bind_eq_some_iff] at h
      obtain ⟨cycle, hcycle, demand, -, placements, hplacements, victim, hvictim, same⟩ := h
      cases same
      exact
        { cycle := (faithful_nat maxWord).bounded hcycle
          placements := Placement.faithful.list.bounded hplacements
          victim := (Victim.faithful.option fun _ null => by cases null).bounded hvictim }
    · cases h

end CycleReport

namespace Json

variable {α : Type}

/-- Reads a value off a text. -/
def readAs (decode? : Json → Option α) (text : String) : Option α := (read? text).bind decode?

/-- The text that is written of what a text is read as. -/
def recode (encode : α → Json) (decode? : Json → Option α) (text : String) : Option String :=
  (readAs decode? text).map fun v => (encode v).write

/-- Every value in range reads back from its text.  Whatever a text is read as is in range and reads
back from its own text, which is written once more in the same way. -/
structure Recodes (encode : α → Json) (decode? : Json → Option α) (InRange : α → Prop) : Prop where
  written : ∀ v, InRange v → readAs decode? (encode v).write = some v
  accepted : ∀ text v, readAs decode? text = some v →
    InRange v ∧ readAs decode? (encode v).write = some v
  settled : ∀ text again, recode encode decode? text = some again →
    recode encode decode? again = some again

theorem Faithful.recodes {encode : α → Json} {decode? : Json → Option α} {InRange : α → Prop}
    (form : Faithful encode decode? InRange) : Recodes encode decode? InRange := by
  have written : ∀ v, InRange v → readAs decode? (encode v).write = some v := by
    intro v ok
    rw [readAs, read?_write, Option.bind_some, form.reads ok]
  have accepted : ∀ text v, readAs decode? text = some v → InRange v := by
    intro text v h
    obtain ⟨j, -, read⟩ := Option.bind_eq_some_iff.1 h
    exact form.bounded read
  refine
    { written := written
      accepted := fun text v h => ⟨accepted text v h, written v (accepted text v h)⟩
      settled := fun text again h => ?settled }
  obtain ⟨v, read, rfl⟩ := Option.map_eq_some_iff.1 h
  rw [recode, written v (accepted text v read), Option.map_some]

end Json

open Json (Recodes readAs)

/-- Values of all kinds that are exchanged read back from their texts, and what is read off any text
is written and read again without change.  A quantity that is read has, in each dimension, the last
amount that the text gives for it, and stores no zero. -/
theorem written_reads_back :
    Recodes Resource.encode Resource.decode? (fun _ => True) ∧
      Recodes ContainerId.encode ContainerId.decode? ContainerId.InRange ∧
      Recodes AttemptId.encode AttemptId.decode? AttemptId.InRange ∧
      Recodes Victim.encode Victim.decode? Victim.InRange ∧
      Recodes Pacing.encode Pacing.decode? Pacing.InRange ∧
      Recodes Placement.encode Placement.decode? Placement.InRange ∧
      Recodes CycleReport.encode CycleReport.decode? CycleReport.InRange ∧
      Recodes Permission.encode Permission.decode? (fun _ => True) ∧
      Recodes Listing.encode Listing.decode? Listing.InRange ∧
      Recodes Health.encode Health.decode? Health.InRange ∧
      ∀ text r, readAs Resource.decode? text = some r →
        ∃ given : List (String × Nat),
          Json.read? text = some (Json.record (given.map fun e => (e.1, ofNat e.2))) ∧
            (∀ dim, r.get dim = (lastOf given dim).getD 0) ∧ ∀ e ∈ r.toList, 0 < e.2 := by
  refine ⟨Resource.faithful.recodes, ContainerId.faithful.recodes, AttemptId.faithful.recodes,
    Victim.faithful.recodes, Pacing.faithful.recodes, Placement.faithful.recodes,
    CycleReport.faithful.recodes, Permission.faithful.recodes, Listing.faithful.recodes,
    Health.faithful.recodes, ?_⟩
  intro text r h
  obtain ⟨j, read, h⟩ := Option.bind_eq_some_iff.1 h
  obtain ⟨given, rfl, small, rfl⟩ := Resource.decode?_eq_some.1 h
  refine ⟨given, read, fun dim => ?_, fun e he => ((Resource.ofList given).inRange e he).1⟩
  rw [Resource.get_ofList]
  apply Nat.min_eq_left
  cases last : lastOf given dim with
  | none => exact Nat.zero_le _
  | some amount => exact small _ (Table.lastOf_eq_some last)

/-- A victim as an array, with an unknown member, two escapes and a dimension given twice. -/
def victimText : String :=
  "[ \x7b\"sequence\":18446744073709551615,\"note\":[-1.5e3],\"attempt\":[7,1]\x7d," ++
    "\"root.\\u0061\\n\",\x7b\"vcores\":3,\"memory-mb\":5,\"vcores\":0\x7d]"

/-- Its text is another one, and its quantity has what was given last. -/
theorem written_reads_back_victim :
    let v : Victim := ⟨⟨⟨⟨7⟩, 1⟩, maxWord⟩, "root.a\n", .ofMemoryCores 5 0⟩
    let amounts := "\x7b\"vcores\":3,\"memory-mb\":5,\"vcores\":0\x7d"
    readAs Victim.decode? victimText = some v ∧ v.encode.write ≠ victimText ∧ v.InRange ∧
      readAs Victim.decode? v.encode.write = some v ∧
      readAs Resource.decode? amounts = some v.resource ∧
      ∃ given : List (String × Nat),
        Json.read? amounts = some (Json.record (given.map fun e => (e.1, ofNat e.2))) ∧
          (∀ dim, v.resource.get dim = (lastOf given dim).getD 0) ∧
          ∀ e ∈ v.resource.toList, 0 < e.2 := by
  intro v amounts
  have read : readAs Victim.decode? victimText = some v := by decide +kernel
  have quantity : readAs Resource.decode? amounts = some v.resource := by decide +kernel
  obtain ⟨-, -, -, victim, -, -, -, -, -, -, last⟩ := written_reads_back
  obtain ⟨inRange, back⟩ := victim.accepted victimText v read
  exact ⟨read, by decide +kernel, inRange, back, quantity, last amounts v.resource quantity⟩

end FairShare
