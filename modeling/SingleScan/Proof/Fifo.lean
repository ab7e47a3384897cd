import SingleScan.Lib.Fifo
import SingleScan.Proof.Queue

/-!
# The queue is a bounded FIFO

Any calls of `queue_init`, `queue_clear`, `queue_push` and `queue_pop` that respect `queue_is_full` and
`queue_is_empty` return what a FIFO with room for `depth - 1` words returns, and the three questions are
answered from its items.
-/

namespace SingleScan.Queue

/-- A call that changes the queue. -/
inductive Call
  | init (ptr : ℕ → Word) (size : Word)
  | clear
  | push (queueElement : Word)
  | pop

/-- The depths that are allowed, and the conditions under which callers push and pop. -/
def Allowed (queue : Queue) : Call → Prop
  | .init _ size => 2 ≤ size.toNat ∧ size.toNat ≤ 2 ^ 31
  | .clear => True
  | .push _ => queueIsFull queue = false
  | .pop => queueIsEmpty queue = false

instance (queue : Queue) : ∀ call, Decidable (queue.Allowed call)
  | .init _ size => inferInstanceAs (Decidable (2 ≤ size.toNat ∧ size.toNat ≤ 2 ^ 31))
  | .clear => isTrue trivial
  | .push _ => inferInstanceAs (Decidable (_ = false))
  | .pop => inferInstanceAs (Decidable (_ = false))

/-- The queue behind a call. -/
def on (queue : Queue) : Call → Queue
  | .init ptr size => queueInit ptr size
  | .clear => queueClear queue
  | .push queueElement => queuePush queue queueElement
  | .pop => (queuePop queue).2

/-- The word that a call returns. -/
def returned (queue : Queue) : Call → Option Word
  | .pop => some (queuePop queue).1
  | .init _ _ | .clear | .push _ => none

/-- What a call is for. -/
def Call.op : Call → Fifo.Op Word
  | init _ size => .renew (size.toNat - 1)
  | clear => .clear
  | push queueElement => .push queueElement
  | pop => .pop

/-- The queue is in its bounds, and holds the items of the FIFO. -/
structure Represents (queue : Queue) (fifo : Fifo Word) : Prop where
  valid : queue.Valid
  capacity : fifo.capacity = queue.depth.toNat - 1
  items : fifo.items = queue.contents

variable {queue : Queue} {fifo : Fifo Word} {calls : List Call}

theorem represents_init (ptr : ℕ → Word) {size : Word} (htwo : 2 ≤ size.toNat)
    (hsize : size.toNat ≤ 2 ^ 31) :
    Represents (queueInit ptr size) (Fifo.empty (size.toNat - 1)) :=
  ⟨valid_init ptr htwo hsize, rfl, (contents_init ptr htwo hsize).symm⟩

/-- **One call.** -/
theorem Represents.step (h : Represents queue fifo) {call : Call} (hallowed : queue.Allowed call) :
    ∃ fifo', fifo.step call.op = some (queue.returned call, fifo') ∧
      Represents (queue.on call) fifo' := by
  have hvalid := h.valid
  cases call with
  | init ptr size => exact ⟨_, rfl, represents_init ptr hallowed.1 hallowed.2⟩
  | clear => exact ⟨_, rfl, valid_clear hvalid, h.capacity, (contents_clear hvalid).symm⟩
  | push queueElement =>
      have hlength := (not_isFull_iff_length hvalid).1 hallowed
      have hroom : fifo.items.length < fifo.capacity := by
        rw [h.items, h.capacity]
        omega
      obtain ⟨fifo', hpush, hcapacity, hitems⟩ := Fifo.push_of_room hroom queueElement
      refine ⟨fifo', by rw [Call.op, Fifo.step, hpush]; rfl, valid_push hvalid queueElement,
        hcapacity.trans h.capacity, ?_⟩
      rw [hitems, h.items]
      exact (contents_push hvalid hallowed queueElement).symm
  | pop =>
      have hne : queue.contents ≠ [] := by
        rw [Ne, ← isEmpty_iff hvalid, Bool.not_eq_true]
        exact hallowed
      have hcontents := h.items.trans (contents_pop hvalid hne)
      obtain ⟨fifo', hpop, hcapacity, hitems⟩ := Fifo.pop_of_cons hcontents
      exact ⟨fifo', by rw [Call.op, Fifo.step, hpop]; rfl, valid_pop hvalid,
        hcapacity.trans h.capacity, hitems⟩

/-- **A run of calls.** -/
theorem Represents.run (h : Represents queue fifo) (hcalls : Machine.Along on Allowed queue calls) :
    ∃ fifo', Machine.runSpec Fifo.step fifo (calls.map Call.op) =
        some (Machine.outputs on returned queue calls, fifo') ∧
      Represents (calls.foldl on queue) fifo' :=
  hcalls.simulate (fun _ _ _ hrel hallowed => hrel.step hallowed) h

/-- The indices and the three questions, for the items that the queue holds. -/
structure Answers (queue : Queue) (fifo : Fifo Word) : Prop where
  front_lt : queue.front.toNat < queue.depth.toNat
  rear_lt : queue.rear.toNat < queue.depth.toNat
  capacity : fifo.capacity = queue.depth.toNat - 1
  count : (queueCount queue).toNat = fifo.items.length
  isEmpty_iff : queueIsEmpty queue = true ↔ fifo.items.length = 0
  isFull_iff : queueIsFull queue = true ↔ fifo.items.length = fifo.capacity

theorem Represents.answers (h : Represents queue fifo) : Answers queue fifo where
  front_lt := h.valid.front_lt
  rear_lt := h.valid.rear_lt
  capacity := h.capacity
  count := by rw [toNat_count h.valid, h.items]
  isEmpty_iff := by rw [isEmpty_iff h.valid, h.items, List.length_eq_zero_iff]
  isFull_iff := by
    have hfull := not_isFull_iff_length h.valid
    have hfits := fifo.fits
    rw [← Bool.not_eq_false, hfull, ← h.items]
    rw [h.capacity] at hfits ⊢
    have htwo := h.valid.two_le
    omega

/-- **The bounded FIFO.** Whatever the depth and the calls, the FIFO with room for `depth - 1` words allows
the calls, too, and returns the same words; the indices and the answers are right behind them; and between
two calls that throw words away, words come out in the order in which they went in. -/
theorem refines_fifo (ptr : ℕ → Word) {size : Word} (htwo : 2 ≤ size.toNat)
    (hsize : size.toNat ≤ 2 ^ 31)
    (hcalls : Machine.Along on Allowed (queueInit ptr size) calls) :
    (∃ fifo, Machine.runSpec Fifo.step (Fifo.empty (size.toNat - 1)) (calls.map Call.op) =
        some (Machine.outputs on returned (queueInit ptr size) calls, fifo) ∧
      Answers (calls.foldl on (queueInit ptr size)) fifo ∧
      fifo.items = (calls.foldl on (queueInit ptr size)).contents) ∧
    ∀ before moves, calls = before ++ moves → (∀ call ∈ moves, call.op.Moves) →
      (before.foldl on (queueInit ptr size)).contents ++
          (moves.map Call.op).filterMap Fifo.Op.pushed =
        Machine.outputs on returned (before.foldl on (queueInit ptr size)) moves ++
          (calls.foldl on (queueInit ptr size)).contents := by
  have hinit := represents_init ptr htwo hsize
  constructor
  · obtain ⟨fifo, hrun, hend⟩ := hinit.run hcalls
    exact ⟨fifo, hrun, hend.answers, hend.items⟩
  · rintro before moves rfl hmoves
    obtain ⟨hbefore, hlater⟩ := Machine.Along.append_iff.1 hcalls
    obtain ⟨middle, -, hmiddle⟩ := hinit.run hbefore
    obtain ⟨last, hrun, hlast⟩ := hmiddle.run hlater
    have horder := Fifo.run_order (List.forall_mem_map.2 hmoves) hrun
    rw [List.foldl_append, ← hmiddle.items, ← hlast.items]
    exact horder

/-- Three words through a queue of depth 2, around its end. -/
def threeCalls : List Call := [.push 7, .pop, .push 8, .clear, .push 9, .pop]

theorem refines_fifo_three :
    ∃ fifo, Machine.runSpec Fifo.step (Fifo.empty 1) (threeCalls.map Call.op) =
      some ([7, 9], fifo) ∧ fifo.items = [] := by
  have hcalls : Machine.Along on Allowed (queueInit (fun _ => 1) 2) threeCalls := by decide
  obtain ⟨⟨fifo, hrun, -, hitems⟩, -⟩ := refines_fifo (fun _ => 1) (by decide) (by decide) hcalls
  exact ⟨fifo, hrun, hitems.trans (by decide)⟩

end SingleScan.Queue
