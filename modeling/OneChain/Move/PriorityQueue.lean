import OneChain.Move.Basic

/-!
# `priority_queue`: a binary max heap in a vector

The functions of `priority_queue.move`. The children of `entries[i]` are at `i * 2 + 1` and
`i * 2 + 2`. A heapify goes to a larger index each time it recurs, so the number of entries bounds
how deep it goes.
-/

namespace OneChain.Move

open Lib

/-- An entry: a higher `priority` is popped first. -/
structure Entry (T : Type) where
  priority : ℕ
  value : T
  deriving DecidableEq, Repr

/-- The entries of a queue. -/
abbrev PriorityQueue (T : Type) := List (Entry T)

namespace PriorityQueue

variable {T : Type}

def EPopFromEmptyHeap : Abort := .code .priorityQueue 0

variable (v : PriorityQueue T)

/-- The priority at `i`; a place outside the vector has none. -/
def priorityAt (i : ℕ) : Option ℕ := v[i]?.map (·.priority)

/-- Whether the node at `child` exists and comes before the one at `best`. -/
def precedes (child best : ℕ) : Bool :=
  match v.priorityAt child, v.priorityAt best with
  | some p, some q => p > q
  | _, _ => false

def swap (i j : ℕ) : PriorityQueue T :=
  match v[i]?, v[j]? with
  | some a, some b => (v.set i b).set j a
  | _, _ => v

/-- Max heapify the subtree at `i`; `fuel` bounds the depth. -/
def maxHeapifyRecursive : ℕ → PriorityQueue T → ℕ → PriorityQueue T
  | 0, v, _ => v
  | fuel + 1, v, i =>
    let left := i * 2 + 1
    let right := left + 1
    let max := if v.precedes left i then left else i
    let max := if v.precedes right max then right else max
    if max = i then v else maxHeapifyRecursive fuel (v.swap max i) max

/-- Heapify from the last parent to the root. -/
def new (entries : List (Entry T)) : PriorityQueue T :=
  (List.range (entries.length / 2)).reverse.foldl
    (fun v i => maxHeapifyRecursive v.length v i) entries

/-- The entry of highest priority, and the others: the last entry takes the place of the root. -/
def popMax (pq : PriorityQueue T) : Call (Entry T × PriorityQueue T) :=
  match pq with
  | [] => .error EPopFromEmptyHeap
  | root :: rest =>
    let entries := match rest.getLast? with
      | none => []
      | some last => last :: rest.dropLast
    .ok (root, maxHeapifyRecursive entries.length entries 0)

example : (popMax (new [⟨3, 10⟩, ⟨1, 20⟩, ⟨4, 30⟩, ⟨5, 50⟩])).map (·.1) =
    (.ok ⟨5, 50⟩ : Call (Entry ℕ)) := by decide

end PriorityQueue

end OneChain.Move
