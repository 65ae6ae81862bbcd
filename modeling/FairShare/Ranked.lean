/-!
Choices by a comparison.  `ranked` orders a list and keeps the order of equals; `firstGreatest` and
`lastGreatest` choose the first and the last of the greatest elements.
-/

namespace FairShare

variable {α : Type}

/-- Puts an element before the first one that it does not exceed. -/
def insertRanked (cmp : α → α → Ordering) (x : α) : List α → List α
  | [] => [x]
  | y :: rest => if cmp x y = .gt then y :: insertRanked cmp x rest else x :: y :: rest

/-- The list in ascending order; equals keep their order. -/
def ranked (cmp : α → α → Ordering) : List α → List α
  | [] => []
  | x :: rest => insertRanked cmp x (ranked cmp rest)

/-- The first element that no later one exceeds and that exceeds every candidate before it. -/
def firstGreatest (cmp : α → α → Ordering) (l : List α) : Option α :=
  l.foldl (fun best x =>
    match best with
    | none => some x
    | some b => if cmp x b = .gt then some x else some b) none

/-- The last of the greatest elements. -/
def lastGreatest (cmp : α → α → Ordering) (l : List α) : Option α :=
  l.foldl (fun best x =>
    match best with
    | none => some x
    | some b => if cmp x b = .lt then some b else some x) none

end FairShare
