/-!
Names of queues.  A name is the path of the queue, its segments joined by dots, and begins at
`root`.  The ancestors of a name are what is left of it before each of its dots.
-/

namespace FairShare.Path

def root : String := "root"

/-- What stands before each dot of a text, longest first. -/
def cuts : List Char → List (List Char)
  | [] => []
  | c :: rest => (cuts rest).map (c :: ·) ++ if c = '.' then [[]] else []

/-- What stands after the last dot of a text, or all of it. -/
def tail : List Char → List Char
  | [] => []
  | c :: rest => if '.' ∈ rest then tail rest else if c = '.' then rest else c :: rest

def split : List Char → List (List Char)
  | [] => [[]]
  | c :: rest =>
    if c = '.' then [] :: split rest
    else match split rest with
      | [] => [[c]]
      | piece :: pieces => (c :: piece) :: pieces

def segments (name : String) : List String := (split name.toList).map String.ofList

/-- The name and its ancestors, nearest first. -/
def ancestors (name : String) : List String :=
  name :: (cuts name.toList).map String.ofList

/-- The name of the parent queue, which a name without a dot does not have. -/
def parent? (name : String) : Option String := (cuts name.toList).head?.map String.ofList

def lastSegment (name : String) : String := String.ofList (tail name.toList)

inductive Fault where
  | notRooted (name : String)
  | emptySegment (name : String)
deriving DecidableEq, Repr

def Fault.message : Fault → String
  | .notRooted name => "queue `" ++ name ++ "` must be rooted at `" ++ root ++ "`"
  | .emptySegment name => "queue `" ++ name ++ "` has an empty path segment"

/-- Whether a name is `root` or begins with `root` and a dot. -/
def isRooted (name : String) : Bool :=
  name = root || (root.toList ++ ['.']).isPrefixOf name.toList

/-- Checks that a name begins at the root and has no empty segment. -/
def check (name : String) : Except Fault Unit :=
  if !isRooted name then .error (.notRooted name)
  else if "" ∈ segments name then .error (.emptySegment name)
  else .ok ()

def isLegal (name : String) : Bool := (check name).isOk

end FairShare.Path
