import SingleScan.Lib.Ring
import SingleScan.Queue

/-!
# The queue is a ring

Inside its bounds the queue holds a list; the operations push at its end and pop at its front as long
as the caller respects `queue_is_full` and `queue_is_empty`.
-/

namespace SingleScan.Queue

/-- The bounds of the indices. -/
structure Valid (queue : Queue) : Prop where
  depth_le : queue.depth.toNat ≤ 2 ^ 31
  two_le : 2 ≤ queue.depth.toNat
  front_lt : queue.front.toNat < queue.depth.toNat
  rear_lt : queue.rear.toNat < queue.depth.toNat

/-- The words in the queue, oldest first. -/
def contents (queue : Queue) : List Word :=
  Ring.cells queue.data queue.depth.toNat queue.front.toNat
    (Ring.count queue.depth.toNat queue.front.toNat queue.rear.toNat)

variable {queue : Queue}

theorem toNat_next (h : queue.Valid) {index : Word} (hindex : index.toNat < queue.depth.toNat) :
    ((index + 1) % queue.depth).toNat = (index.toNat + 1) % queue.depth.toNat := by
  have hdepth := h.depth_le
  rw [BitVec.toNat_umod, BitVec.toNat_add]
  congr 1
  exact Nat.mod_eq_of_lt (by simp; omega)

theorem valid_init (ptr : ℕ → Word) {size : Word} (htwo : 2 ≤ size.toNat)
    (hsize : size.toNat ≤ 2 ^ 31) : (queueInit ptr size).Valid :=
  ⟨hsize, htwo, by simp [queueInit]; omega, by simp [queueInit]; omega⟩

theorem contents_of_front_eq_rear (heq : queue.front = queue.rear) (h : queue.Valid) :
    queue.contents = [] := by
  rw [contents, (Ring.count_eq_zero_iff h.front_lt h.rear_lt).mpr (by rw [heq]),
    Ring.cells_zero]

theorem valid_clear (h : queue.Valid) : (queueClear queue).Valid :=
  ⟨h.depth_le, h.two_le, Nat.lt_of_lt_of_le (by simp [queueClear]) h.two_le,
    Nat.lt_of_lt_of_le (by simp [queueClear]) h.two_le⟩

theorem contents_clear (h : queue.Valid) : (queueClear queue).contents = [] :=
  contents_of_front_eq_rear rfl (valid_clear h)

theorem contents_init (ptr : ℕ → Word) {size : Word} (htwo : 2 ≤ size.toNat)
    (hsize : size.toNat ≤ 2 ^ 31) : (queueInit ptr size).contents = [] :=
  contents_of_front_eq_rear rfl (valid_init ptr htwo hsize)

theorem toNat_count (h : queue.Valid) : (queueCount queue).toNat = queue.contents.length := by
  have hdepth := h.depth_le
  have hfront := h.front_lt
  have hrear := h.rear_lt
  rw [contents, Ring.length_cells, queueCount]
  by_cases hempty : queueIsEmpty queue = false
  · have hsum : (queue.rear + queue.depth).toNat = queue.rear.toNat + queue.depth.toNat := by
      rw [BitVec.toNat_add, Nat.mod_eq_of_lt (by omega)]
    have hle : queue.front ≤ queue.rear + queue.depth := by
      rw [BitVec.le_def, hsum]
      omega
    rw [if_pos hempty, Ring.count, BitVec.toNat_umod, BitVec.toNat_sub_of_le hle, hsum]
  · rw [if_neg hempty]
    have heq : queue.front = queue.rear := by simpa [queueIsEmpty] using hempty
    exact ((Ring.count_eq_zero_iff hfront hrear).mpr (by rw [heq])).symm

theorem isEmpty_iff (h : queue.Valid) : queueIsEmpty queue = true ↔ queue.contents = [] := by
  rw [← List.length_eq_zero_iff, contents, Ring.length_cells,
    Ring.count_eq_zero_iff h.front_lt h.rear_lt, BitVec.toNat_inj, queueIsEmpty, beq_iff_eq]

theorem not_isFull_iff (h : queue.Valid) :
    queueIsFull queue = false ↔
      (queue.rear.toNat + 1) % queue.depth.toNat ≠ queue.front.toNat := by
  rw [← toNat_next h h.rear_lt, ne_eq, BitVec.toNat_inj, queueIsFull, beq_eq_false_iff_ne]
  exact ne_comm

theorem not_isFull_iff_length (h : queue.Valid) :
    queueIsFull queue = false ↔ queue.contents.length + 1 < queue.depth.toNat := by
  rw [not_isFull_iff h, contents, Ring.length_cells, Ring.count_eq h.front_lt h.rear_lt]
  have hfront := h.front_lt
  have hrear := h.rear_lt
  rw [Ring.mod_of_lt_two_mul (by omega)]
  split <;> split <;> omega

theorem not_isFull_of_length (h : queue.Valid)
    (hlength : queue.contents.length + 1 < queue.depth.toNat) : queueIsFull queue = false :=
  (not_isFull_iff_length h).2 hlength

theorem valid_push (h : queue.Valid) (w : Word) : (queuePush queue w).Valid := by
  refine ⟨h.depth_le, h.two_le, h.front_lt, ?_⟩
  change ((queue.rear + 1) % queue.depth).toNat < queue.depth.toNat
  rw [toNat_next h h.rear_lt]
  exact Nat.mod_lt _ (Nat.lt_of_lt_of_le (by decide) h.two_le)

theorem contents_push (h : queue.Valid) (hroom : queueIsFull queue = false) (w : Word) :
    (queuePush queue w).contents = queue.contents ++ [w] := by
  unfold contents
  rw [← Ring.cells_push h.front_lt h.rear_lt ((not_isFull_iff h).mp hroom),
    ← toNat_next h h.rear_lt]
  rfl

theorem valid_pop (h : queue.Valid) : (queuePop queue).2.Valid := by
  refine ⟨h.depth_le, h.two_le, ?_, h.rear_lt⟩
  change ((queue.front + 1) % queue.depth).toNat < queue.depth.toNat
  rw [toNat_next h h.front_lt]
  exact Nat.mod_lt _ (Nat.lt_of_lt_of_le (by decide) h.two_le)

theorem contents_pop (h : queue.Valid) (hne : queue.contents ≠ []) :
    queue.contents = (queuePop queue).1 :: (queuePop queue).2.contents := by
  have hfront : queue.front.toNat ≠ queue.rear.toNat := by
    intro heq
    exact hne (contents_of_front_eq_rear (BitVec.eq_of_toNat_eq heq) h)
  unfold contents
  rw [Ring.cells_pop h.front_lt h.rear_lt hfront, ← toNat_next h h.front_lt]
  rfl

/-! ### A queue with given words -/

/-- The queue of the Nios core, with these words in it. -/
def holding (ws : List Word) : Queue where
  front := 0
  rear := BitVec.ofNat 32 ws.length
  depth := 2048
  frameOverFlag := 0
  data := fun i => ws.getD i 0

theorem valid_holding {ws : List Word} (hroom : ws.length < 2048) : (holding ws).Valid := by
  have hdepth : (holding ws).depth.toNat = 2048 := rfl
  have hfront : (holding ws).front.toNat = 0 := rfl
  constructor
  · rw [hdepth]
    decide
  · rw [hdepth]
    decide
  · rw [hdepth, hfront]
    decide
  · have hrear : (holding ws).rear.toNat = ws.length := by
      change ws.length % 2 ^ 32 = ws.length
      exact Nat.mod_eq_of_lt (by omega)
    rw [hrear]
    exact hroom

theorem contents_holding {ws : List Word} (hroom : ws.length < 2048) : (holding ws).contents = ws := by
  have hrear : ws.length % 2 ^ 32 = ws.length := Nat.mod_eq_of_lt (by omega)
  have hcount : Ring.count 2048 0 (ws.length % 2 ^ 32) = ws.length := by
    rw [hrear, Ring.count_eq (by decide) hroom, if_pos (Nat.zero_le _), Nat.sub_zero]
  change Ring.cells (fun i => ws.getD i 0) 2048 0 (Ring.count 2048 0 (ws.length % 2 ^ 32)) = ws
  rw [hcount]
  refine List.ext_getElem Ring.length_cells fun i hi hi' => ?_
  have hmod : i % 2048 = i := Nat.mod_eq_of_lt (by omega)
  simp [Ring.cells, hmod, hi']

end SingleScan.Queue
