import FairShare.Allocation
import FairShare.Ident
import FairShare.Json.Decode
import FairShare.Leaf
import FairShare.Resource

/-!
The JSON forms of quantities, identifiers and words.
-/

namespace FairShare

open Json (record ofNat ofString asWord? asNat? asString? asTable? asRecord? asWordOf?)

namespace Resource

/-- A vector is an object of its amounts. -/
def encode (r : Resource) : Json := record (r.toList.map fun e => (e.1, ofNat e.2))

/-- Reads a vector; the last amount of a dimension counts. -/
def decode? (j : Json) : Option Resource :=
  (asTable? asWord? j).map fun t => .ofList t.entries

end Resource

namespace ApplicationId

def encode (a : ApplicationId) : Json := ofNat a.number

def decode? (j : Json) : Option ApplicationId := (asWord? j).map ApplicationId.mk

end ApplicationId

namespace AttemptId

def encode (a : AttemptId) : Json :=
  record [("application", a.application.encode), ("attempt", ofNat a.attempt)]

def decode? (j : Json) : Option AttemptId := do
  let [some application, some attempt] ← asRecord? ["application", "attempt"] j | none
  return ⟨← ApplicationId.decode? application, ← asNat? 0xffffffff attempt⟩

end AttemptId

namespace ContainerId

def encode (c : ContainerId) : Json :=
  record [("attempt", c.attempt.encode), ("sequence", ofNat c.sequence)]

def decode? (j : Json) : Option ContainerId := do
  let [some attempt, some sequence] ← asRecord? ["attempt", "sequence"] j | none
  return ⟨← AttemptId.decode? attempt, ← asWord? sequence⟩

end ContainerId

namespace Priority

def encode (p : Priority) : Json := ofNat p.level

def decode? (j : Json) : Option Priority := (asNat? 0xffffffff j).map Priority.mk

end Priority

namespace FinalState

def all : List FinalState := [finished, failed, killed]

def word : FinalState → String
  | finished => "finished"
  | failed => "failed"
  | killed => "killed"

def ofWord? (w : String) : Option FinalState := all.find? fun s => s.word = w

def encode (s : FinalState) : Json := ofString s.word

def decode? (j : Json) : Option FinalState := asWordOf? ofWord? j

end FinalState

namespace Operation

def encode (o : Operation) : Json := ofString o.word

def decode? (j : Json) : Option Operation := asWordOf? ofWord? j

end Operation

namespace Victim

def encode (v : Victim) : Json :=
  record [("container", v.container.encode), ("queue", ofString v.queue),
    ("resource", v.resource.encode)]

def decode? (j : Json) : Option Victim := do
  let [some container, some queue, some resource] ←
    asRecord? ["container", "queue", "resource"] j | none
  return ⟨← ContainerId.decode? container, ← asString? queue, ← Resource.decode? resource⟩

end Victim
end FairShare
