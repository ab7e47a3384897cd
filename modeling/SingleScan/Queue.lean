import SingleScan.Basic
import Mathlib.Logic.Function.Basic

/-!
# The queue of the Nios core

`queue.c`. The indices are `unsigned`, the array behind `data` is a function of the index. Neither
`queue_push` nor `queue_pop` checks anything.
-/

namespace SingleScan

structure Queue where
  front : Word
  rear : Word
  depth : Word
  frameOverFlag : Word
  data : ℕ → Word

/-- `queue_init`, over the array `ptr`. -/
def queueInit (ptr : ℕ → Word) (size : Word) : Queue where
  front := 0
  rear := 0
  depth := size
  frameOverFlag := 0
  data := fun i => if i < size.toNat then 0 else ptr i

/-- `queue_clear`. -/
def queueClear (queue : Queue) : Queue := { queue with front := 0, rear := 0 }

/-- `queue_push`. -/
def queuePush (queue : Queue) (queueElement : Word) : Queue :=
  { queue with
    data := Function.update queue.data queue.rear.toNat queueElement
    rear := (queue.rear + 1) % queue.depth }

/-- `queue_pop`. -/
def queuePop (queue : Queue) : Word × Queue :=
  (queue.data queue.front.toNat, { queue with front := (queue.front + 1) % queue.depth })

/-- `queue_is_empty`. -/
def queueIsEmpty (queue : Queue) : Bool := queue.front == queue.rear

/-- `queue_is_full`. -/
def queueIsFull (queue : Queue) : Bool := queue.front == (queue.rear + 1) % queue.depth

/-- `queue_count`. -/
def queueCount (queue : Queue) : Word :=
  if queueIsEmpty queue = false then (queue.rear + queue.depth - queue.front) % queue.depth else 0

end SingleScan
