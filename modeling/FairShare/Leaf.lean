import FairShare.Ident
import FairShare.Ranked
import FairShare.Resource

/-!
Leaf queues.  A leaf holds applications in the order in which they were submitted.  An application
holds requests that wait, in order, and containers that run; granting a request makes it a container
under the application's next sequence number.
-/

namespace FairShare

structure Container where
  id : ContainerId
  resource : Resource
deriving DecidableEq, Inhabited

/-- A container that is to be given up, and the queue it runs in. -/
structure Victim where
  container : ContainerId
  queue : String
  resource : Resource
deriving DecidableEq

structure App where
  attempt : AttemptId
  user : String
  pending : List Resource := []
  running : List Container := []
  nextSequence : Nat := 1
deriving DecidableEq

structure Leaf where
  apps : List App := []
  demand : Resource := .zero
deriving DecidableEq, Inhabited

namespace App

def usage (a : App) : Resource := .sum (a.running.map Container.resource)

/-- What an application uses and waits for. -/
def want (a : App) : Resource := a.pending.foldl (· + ·) a.usage

/-- The request at the front, if it fits in what is available. -/
def offerable (a : App) (available : Resource) : Option Resource :=
  match a.pending with
  | [] => none
  | request :: _ => if request.fitsIn available then some request else none

/-- The application after its first request became a container. -/
def granted (a : App) (request : Resource) : App :=
  { a with
    pending := a.pending.drop 1
    running := a.running ++ [⟨⟨a.attempt, a.nextSequence⟩, request⟩]
    nextSequence := a.nextSequence + 1 }

end App

namespace Leaf

/-- Changes the first application of an attempt; fails if there is none. -/
def updateApp? (attempt : AttemptId) (f : App → App) : List App → Option (List App)
  | [] => none
  | a :: rest =>
    if a.attempt = attempt then some (f a :: rest) else (updateApp? attempt f rest).map (a :: ·)

def app? (l : Leaf) (attempt : AttemptId) : Option App := l.apps.find? fun a => a.attempt = attempt

/-- Puts an attempt at the end of the leaf; fails if it is there already. -/
def submit? (l : Leaf) (attempt : AttemptId) (user : String) : Option Leaf :=
  match l.app? attempt with
  | some _ => none
  | none => some { l with apps := l.apps ++ [{ attempt, user }] }

/-- Adds a request to an attempt; fails if the attempt is unknown. -/
def request? (l : Leaf) (attempt : AttemptId) (request : Resource) : Option Leaf :=
  (updateApp? attempt (fun a => { a with pending := a.pending ++ [request] }) l.apps).map
    fun apps => { l with apps }

/-- Removes an attempt with all it holds, and tells who submitted it. -/
def finish? (l : Leaf) (attempt : AttemptId) : Option (Leaf × String) :=
  (l.app? attempt).map fun a =>
    ({ l with apps := l.apps.eraseP fun a => a.attempt = attempt }, a.user)

/-- Removes a running container; fails if it does not run here. -/
def release? (l : Leaf) (id : ContainerId) : Option Leaf :=
  match l.app? id.attempt with
  | none => none
  | some a =>
    if a.running.all fun c => c.id ≠ id then none
    else
      (updateApp? id.attempt (fun a => { a with running := a.running.filter fun c => c.id ≠ id })
        l.apps).map fun apps => { l with apps }

def pendingCount (l : Leaf) : Nat := (l.apps.flatMap App.pending).length

def usage (l : Leaf) : Resource := .sum (l.apps.map App.usage)

def want (l : Leaf) : Resource := .sum (l.apps.map App.want)

/-- Grants the first request of the first application for which it fits. -/
def grantFirst (available : Resource) : List App → Option (Resource × List App)
  | [] => none
  | a :: rest =>
    match a.offerable available with
    | some request => some (request, a.granted request :: rest)
    | none => (grantFirst available rest).map fun (request, rest) => (request, a :: rest)

/-- Grants a request that fits in what is available, if there is one. -/
def grant? (l : Leaf) (available : Resource) : Option (Resource × Leaf) :=
  (grantFirst available l.apps).map fun (request, apps) => (request, { l with apps })

/-- Compares applications by the memory and then the cores that they use. -/
def compareUsage (a b : App) : Ordering :=
  (compare a.usage.memory b.usage.memory).then (compare a.usage.cores b.usage.cores)

/-- The newest container of the application that uses most; of equals, of the last submitted. -/
def victim? (l : Leaf) : Option Container :=
  (lastGreatest compareUsage (l.apps.filter fun a => !a.running.isEmpty)).bind fun a =>
    a.running.getLast?

end Leaf
end FairShare
