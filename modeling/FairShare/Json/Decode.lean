import FairShare.Json.Basic
import FairShare.Table

/-!
Reading domain values off JSON values.  A record may be an object, whose unknown members are
ignored and whose known members occur at most once, or an array of its members in order.
-/

namespace FairShare.Json

/-- A natural number up to a limit. -/
def asNat? (limit : Nat) : Json → Option Nat
  | .number n => n.toNat? limit
  | _ => none

def asWord? : Json → Option Nat := asNat? 0xffffffffffffffff

def asFloat? : Json → Option Float
  | .number n => n.toFloat?
  | _ => none

def asBool? : Json → Option Bool
  | .bool b => some b
  | _ => none

/-- A string, all of whose escapes stand for characters. -/
def asString? : Json → Option String
  | .text s => s
  | _ => none

def asList? {α : Type} (f : Json → Option α) : Json → Option (List α)
  | .array items => items.mapM f
  | _ => none

def asOption? {α : Type} (f : Json → Option α) : Json → Option (Option α)
  | .null => some none
  | j => (f j).map some

/-- The members of an object by name; the last member of a name counts. -/
def asTable? {α : Type} (f : Json → Option α) : Json → Option (Table α)
  | .object members => do
    let entries ← members.mapM fun (name, value) => return (← name, ← f value)
    return .ofList entries
  | _ => none

/-- One of several words: a string, or an object that holds null under the word. -/
def asWordOf? {α : Type} (f : String → Option α) : Json → Option α
  | .text (some word) => f word
  | .object [(some word, .null)] => f word
  | _ => none

def membersNamed (name : String) (members : List (Option String × Json)) : List Json :=
  (members.filter fun m => m.1 == some name).map Prod.snd

/-- The value of the only member of a name: nothing if there is none, failure if there are two. -/
def member? (members : List (Option String × Json)) (name : String) : Option (Option Json) :=
  match membersNamed name members with
  | [] => some none
  | [value] => some (some value)
  | _ => none

/-- The members of a record by their names.  In an array every member is there. -/
def asRecord? (names : List String) : Json → Option (List (Option Json))
  | .object members =>
    if members.all fun m => m.1.isSome then names.mapM (member? members) else none
  | .array items => if items.length = names.length then some (items.map some) else none
  | _ => none

/-- The members of a record by their names, of which an array may leave out the last ones. -/
def asOpenRecord? (names : List String) : Json → Option (List (Option Json))
  | .array items =>
    if items.length ≤ names.length then
      some (items.map some ++ List.replicate (names.length - items.length) none)
    else none
  | j => asRecord? names j

end FairShare.Json
