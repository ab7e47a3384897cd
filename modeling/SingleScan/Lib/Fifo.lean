import SingleScan.Lib.Run

/-!
# Bounded FIFOs

A list with room for `capacity` items: what comes in at its end goes out at its front. `step` is the
specification that a queue in memory has to meet.
-/

/-- The items, the oldest one first. -/
structure Fifo (α : Type*) where
  capacity : ℕ
  items : List α
  fits : items.length ≤ capacity

namespace Fifo

variable {α : Type*}

/-- Without items. -/
def empty (capacity : ℕ) : Fifo α := ⟨capacity, [], Nat.zero_le capacity⟩

/-- A full FIFO refuses. -/
def push (f : Fifo α) (x : α) : Option (Fifo α) :=
  if h : f.items.length < f.capacity then
    some ⟨f.capacity, f.items ++ [x], by rw [List.length_append]; exact h⟩
  else none

/-- An empty FIFO refuses. -/
def pop : Fifo α → Option (α × Fifo α)
  | ⟨_, [], _⟩ => none
  | ⟨capacity, x :: items, h⟩ => some (x, ⟨capacity, items, Nat.le_of_succ_le h⟩)

/-- The operations. `renew` starts over with another capacity. -/
inductive Op (α : Type*)
  | renew (capacity : ℕ)
  | clear
  | push (x : α)
  | pop

/-- Items move, and none is thrown away. -/
def Op.Moves : Op α → Prop
  | push _ | pop => True
  | renew _ | clear => False

/-- What comes in. -/
def Op.pushed : Op α → Option α
  | push x => some x
  | renew _ | clear | pop => none

/-- One operation: what it returns, and the FIFO behind it. -/
def step (f : Fifo α) : Op α → Option (Option α × Fifo α)
  | .renew capacity => some (none, empty capacity)
  | .clear => some (none, empty f.capacity)
  | .push x => (f.push x).map fun f' => (none, f')
  | .pop => f.pop.map fun (x, f') => (some x, f')

theorem push_of_room {f : Fifo α} (h : f.items.length < f.capacity) (x : α) :
    ∃ f', f.push x = some f' ∧ f'.capacity = f.capacity ∧ f'.items = f.items ++ [x] :=
  ⟨_, dif_pos h, rfl, rfl⟩

theorem pop_of_cons {f : Fifo α} {x : α} {items : List α} (h : f.items = x :: items) :
    ∃ f', f.pop = some (x, f') ∧ f'.capacity = f.capacity ∧ f'.items = items := by
  obtain ⟨capacity, _, hfits⟩ := f
  subst h
  exact ⟨_, rfl, rfl, rfl⟩

theorem step_order {f f' : Fifo α} {op : Op α} {x : Option α} (hmoves : op.Moves)
    (h : f.step op = some (x, f')) : f.items ++ op.pushed.toList = x.toList ++ f'.items := by
  cases op with
  | renew capacity => exact hmoves.elim
  | clear => exact hmoves.elim
  | push y =>
      obtain ⟨f₁, hpush, heq⟩ := Option.map_eq_some_iff.1 h
      obtain ⟨rfl, rfl⟩ := Prod.mk.inj heq
      by_cases hroom : f.items.length < f.capacity
      · obtain ⟨f₂, hpush', -, hitems⟩ := push_of_room hroom y
        obtain rfl := Option.some_inj.1 (hpush.symm.trans hpush')
        exact hitems.symm
      · rw [push, dif_neg hroom] at hpush
        cases hpush
  | pop =>
      obtain ⟨⟨y, f₁⟩, hpop, heq⟩ := Option.map_eq_some_iff.1 h
      obtain ⟨rfl, rfl⟩ := Prod.mk.inj heq
      cases hitems : f.items with
      | nil =>
          obtain ⟨capacity, _, hfits⟩ := f
          subst hitems
          cases hpop
      | cons z items =>
          obtain ⟨f₂, hpop', -, hitems'⟩ := pop_of_cons hitems
          obtain ⟨rfl, rfl⟩ := Prod.mk.inj (Option.some_inj.1 (hpop.symm.trans hpop'))
          rw [hitems']
          exact List.append_nil _

/-- **First in, first out.** While items only move, those that were there and those that come in go out in
this order, up to those that are still there. -/
theorem run_order {f f' : Fifo α} {ops : List (Op α)} {xs : List α} (hmoves : ∀ op ∈ ops, op.Moves)
    (h : Machine.runSpec step f ops = some (xs, f')) :
    f.items ++ ops.filterMap Op.pushed = xs ++ f'.items := by
  induction ops generalizing f xs with
  | nil =>
      obtain ⟨rfl, rfl⟩ := Prod.mk.inj (Option.some_inj.1 h)
      exact List.append_nil _
  | cons op ops ih =>
      obtain ⟨⟨x, f₁⟩, hfirst, hrest⟩ := Option.bind_eq_some_iff.1 h
      obtain ⟨⟨ys, f₂⟩, hrun, heq⟩ := Option.map_eq_some_iff.1 hrest
      obtain ⟨rfl, rfl⟩ := Prod.mk.inj heq
      have horder := step_order (hmoves op List.mem_cons_self) hfirst
      have hlater := ih (fun op' hop => hmoves op' (List.mem_cons_of_mem op hop)) hrun
      have hcons : (op :: ops).filterMap Op.pushed = op.pushed.toList ++ ops.filterMap Op.pushed := by
        cases h : op.pushed <;> simp [h]
      calc f.items ++ (op :: ops).filterMap Op.pushed
          = (f.items ++ op.pushed.toList) ++ ops.filterMap Op.pushed := by
            rw [hcons, List.append_assoc]
        _ = x.toList ++ (f₁.items ++ ops.filterMap Op.pushed) := by
            rw [horder, List.append_assoc]
        _ = (x.toList ++ ys) ++ f₂.items := by rw [hlater, List.append_assoc]

end Fifo
