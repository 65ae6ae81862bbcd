import FairShare.Decimal.Layout
import FairShare.Policy

/-!
The policies that a configuration can name.  Doubles are compared by their total order, in which
`-0` precedes `0`.
-/

namespace FairShare

namespace Decimal

/-- The place of a double in the total order.  What has no value, such as zero times infinity,
precedes every number. -/
def orderKey (x : Float) : Int :=
  let bits := x.toBits.toNat
  if x.isNaN then -Int.ofNat (2 * signBit)
  else if isNegative x then Int.ofNat (signBit - 1) - Int.ofNat bits
  else Int.ofNat bits

/-- The double nearest to a natural number of 64 bits. -/
def ofWord (n : Nat) : Float := n.toUInt64.toFloat

/-- The whole part of a double, within 64 bits with sign. -/
def toInt (x : Float) : Int :=
  if isNegative x then -Int.ofNat (min (-x).toUInt64.toNat signBit)
  else Int.ofNat (min x.toUInt64.toNat (signBit - 1))

/-- The double nearest to an integer of 64 bits with sign. -/
def ofInt (n : Int) : Float := if n < 0 then -ofWord n.natAbs else ofWord n.natAbs

end Decimal

namespace Policy

/-- The policy leaves all shares as they are. -/
def splitNothing : Resource → List Standing → List Resource := fun _ _ => []

/-- Each sibling has its part of the total by weight; nobody has any unless the weights sum to a
positive number. -/
def splitByWeight (total : Resource) (siblings : List Standing) : List Resource :=
  -- The order of the siblings counts: sums of doubles depend on it.
  let sum := siblings.foldl (fun s c => s + c.weight) 0.0
  siblings.map fun c => if 0.0 < sum then total.scale (c.weight / sum) else .zero

/-- Memory in use per megabyte of fair share. -/
def usageRatio (s : Standing) : Float :=
  Decimal.ofWord s.usage.memory / Decimal.ofWord (max s.fairShare.memory 1)

def rankOf (s : Standing) : Int := Decimal.toInt s.weight

/-- The rank times the memory of the parent's fair share and the parent's weight. -/
def scaledRank (s : Standing) : Float :=
  Decimal.ofInt (rankOf s) *
    match s.parent with
    | some (share, weight) => Decimal.ofWord share.memory * weight
    | none => 1.0

/-- Shares by weight; the sibling with the least memory in use for its share comes first. -/
def fair : Policy where
  name := "fair"
  appliesTo _ := true
  split := splitByWeight
  splitSteady := splitByWeight
  compare a b := Ord.compare (Decimal.orderKey (usageRatio a)) (Decimal.orderKey (usageRatio b))

/-- First come, first served; for leaves only. -/
def fifo : Policy where
  name := "fifo"
  appliesTo scope := scope = .leaf
  split := splitNothing
  splitSteady := splitNothing
  compare _ _ := .eq

/-- Equal shares of memory and cores; siblings in the order of their weights. -/
def rank : Policy where
  name := "rank"
  appliesTo _ := true
  split total siblings :=
    let n := max siblings.length 1
    siblings.map fun _ => .ofMemoryCores (total.memory / n) (total.cores / n)
  splitSteady total siblings := siblings.map fun _ => total
  compare a b := Ord.compare (rankOf a) (rankOf b)

/-- No shares and no order; for the root only. -/
def rootOnly : Policy where
  name := "root-only"
  appliesTo scope := scope = .root
  split := splitNothing
  splitSteady := splitNothing
  compare _ _ := .eq

/-- No shares and no order; for the queues between root and leaves only. -/
def midOnly : Policy where
  name := "mid-only"
  appliesTo scope := scope = .intermediate
  split := splitNothing
  splitSteady := splitNothing
  compare _ _ := .eq

def nameDesc : Policy where
  name := "name-desc"
  appliesTo _ := true
  split := splitNothing
  splitSteady := splitNothing
  compare a b := Ord.compare b.name a.name

/-- Siblings in the order of their ranks, scaled by the standing of the parent. -/
def parentScaled : Policy where
  name := "parent-scaled"
  appliesTo _ := true
  split := splitNothing
  splitSteady := splitNothing
  compare a b := Ord.compare (Decimal.orderKey (scaledRank a)) (Decimal.orderKey (scaledRank b))

/-- Shares up to the demand of each sibling; the greatest demand for memory comes first. -/
def demand : Policy where
  name := "demand"
  appliesTo _ := true
  split total siblings := siblings.map fun c => c.demand.meet total
  splitSteady := splitNothing
  compare a b := Ord.compare b.demand.memory a.demand.memory

def catalogue : List Policy :=
  [fair, fifo, rank, rootOnly, midOnly, nameDesc, parentScaled, demand]

def named? (name : String) : Option Policy := catalogue.find? fun p => p.name = name

/-- The policy of queues for which none is named. -/
def defaultName : String := "fair"

end Policy
end FairShare
