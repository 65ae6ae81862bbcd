/-!
Identifiers of applications, their attempts and the containers granted to them.  Each is ordered
by its numbers, the outermost first, and is written with its numbers padded by zeros.
-/

namespace FairShare

/-- A number in decimal digits, padded by zeros to a width. -/
def padded (width n : Nat) : String :=
  let digits := toString n
  String.ofList (List.replicate (width - digits.length) '0') ++ digits

structure ApplicationId where
  number : Nat
deriving DecidableEq, Repr, Inhabited

structure AttemptId where
  application : ApplicationId
  attempt : Nat
deriving DecidableEq, Repr, Inhabited

/-- A container granted to an attempt. -/
structure ContainerId where
  attempt : AttemptId
  sequence : Nat
deriving DecidableEq, Repr, Inhabited

/-- The priority fixed when an application is accepted. -/
structure Priority where
  level : Nat
deriving DecidableEq, Repr

instance : Inhabited Priority := ⟨⟨1⟩⟩

inductive FinalState where
  | finished
  | failed
  | killed
deriving DecidableEq, Repr

namespace ApplicationId

def render (a : ApplicationId) : String := "application_" ++ padded 6 a.number

end ApplicationId

namespace AttemptId

def render (a : AttemptId) : String :=
  "appattempt_" ++ padded 6 a.application.number ++ "_" ++ padded 3 a.attempt

end AttemptId

namespace ContainerId

def render (c : ContainerId) : String :=
  "container_" ++ padded 6 c.attempt.application.number ++ "_" ++ padded 3 c.attempt.attempt
    ++ "_" ++ padded 6 c.sequence

/-- Containers are compared by application, then attempt, then sequence number. -/
def compare (a b : ContainerId) : Ordering :=
  (Ord.compare a.attempt.application.number b.attempt.application.number).then <|
    (Ord.compare a.attempt.attempt b.attempt.attempt).then (Ord.compare a.sequence b.sequence)

end ContainerId

namespace FinalState

def render : FinalState → String
  | finished => "FINISHED"
  | failed => "FAILED"
  | killed => "KILLED"

end FinalState
end FairShare
