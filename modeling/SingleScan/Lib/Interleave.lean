import Mathlib.Order.Monotone.Basic
import Mathlib.Data.List.Basic

/-!
# A driver beside its device

A driver reads and writes the registers of a device that goes on by itself. Between two accesses any events
of the device may happen; `env` says which. What holds for every `env` holds for every interleaving.
-/

namespace Interleave

/-- The device, and how often the driver has accessed it. -/
structure World (σ : Type*) where
  dev : σ
  now : ℕ

/-- What the device does by itself, and when. -/
structure Party (σ ε : Type*) where
  on : σ → ε → σ
  env : ℕ → List ε

namespace Party

variable {σ ε α : Type*} (p : Party σ ε)

/-- The events before the next access. -/
def turn (w : World σ) : World σ := ⟨(p.env w.now).foldl p.on w.dev, w.now + 1⟩

/-- The driver reads. -/
def read (f : σ → α) (w : World σ) : α × World σ := (f (p.turn w).dev, p.turn w)

/-- The driver writes. -/
def write (f : σ → σ) (w : World σ) : World σ := ⟨f (p.turn w).dev, (p.turn w).now⟩

/-- `while (test);` -/
def wait (test : σ → Bool) : ℕ → World σ → Option (World σ)
  | 0, _ => none
  | fuel + 1, w =>
      if test (p.turn w).dev then wait test fuel (p.turn w) else some (p.turn w)

variable {p} {w w' : World σ} {I : σ → Prop} {test : σ → Bool} {fuel : ℕ}

theorem foldl_inv {s : σ} (hon : ∀ s e, I s → I (p.on s e)) (h : I s) (events : List ε) :
    I (events.foldl p.on s) := by
  induction events generalizing s with
  | nil => exact h
  | cons e events ih => exact ih (hon s e h)

/-- **What every event keeps is there at the next access.** -/
theorem turn_inv (hon : ∀ s e, I s → I (p.on s e)) (h : I w.dev) : I (p.turn w).dev :=
  foldl_inv hon h _

theorem turns_inv (hon : ∀ s e, I s → I (p.on s e)) (h : I w.dev) (n : ℕ) :
    I (p.turn^[n] w).dev := by
  induction n with
  | zero => exact h
  | succ n ih =>
      rw [Function.iterate_succ_apply']
      exact turn_inv hon ih

theorem turns_now (n : ℕ) : (p.turn^[n] w).now = w.now + n := by
  induction n with
  | zero => rfl
  | succ n ih =>
      rw [Function.iterate_succ_apply']
      exact congrArg Nat.succ ih

/-- What an event cannot lower is not lowered. -/
theorem turns_mono {β : Type*} [Preorder β] {f : σ → β} (hon : ∀ s e, I s → I (p.on s e))
    (hmono : ∀ s e, I s → f s ≤ f (p.on s e)) (h : I w.dev) : Monotone fun n => f (p.turn^[n] w).dev := by
  refine monotone_nat_of_le_succ ?_
  intro n
  rw [Function.iterate_succ_apply']
  have hstart := turns_inv (w := w) hon h n
  have hevent (s : σ) (e : ε) (hs : I s ∧ f (p.turn^[n] w).dev ≤ f s) :
      I (p.on s e) ∧ f (p.turn^[n] w).dev ≤ f (p.on s e) :=
    ⟨hon s e hs.1, hs.2.trans (hmono s e hs.1)⟩
  exact (turn_inv (w := p.turn^[n] w) hevent ⟨hstart, le_rfl⟩).2

/-- **The rule for waiting.** -/
theorem wait_inv (hon : ∀ s e, I s → I (p.on s e)) (h : I w.dev)
    (hwait : p.wait test fuel w = some w') : I w'.dev ∧ test w'.dev = false := by
  induction fuel generalizing w with
  | zero => cases hwait
  | succ fuel ih =>
      have hturn := turn_inv hon h
      rw [wait] at hwait
      split_ifs at hwait with htest
      · exact ih hturn hwait
      · obtain rfl := Option.some.inj hwait
        exact ⟨hturn, Bool.not_eq_true _ ▸ htest⟩

end Party

/-! ### Returning

A loop with fuel returns if all large amounts of fuel give the same. -/

section Returns

variable {α β : Type*} {f : ℕ → Option α} {g : ℕ → α → Option β} {x : α} {y : β}

def Returns (f : ℕ → Option α) (x : α) : Prop := ∃ enough, ∀ fuel, enough ≤ fuel → f fuel = some x

theorem Returns.pure (x : α) : Returns (fun _ => some x) x := ⟨0, fun _ _ => rfl⟩

theorem Returns.of_succ (h : Returns (fun fuel => f (fuel + 1)) x) : Returns f x := by
  obtain ⟨enough, h⟩ := h
  refine ⟨enough + 1, fun fuel hfuel => ?_⟩
  obtain ⟨fuel, rfl⟩ := Nat.exists_eq_add_of_le' (Nat.le_of_add_left_le hfuel)
  exact h fuel (Nat.le_of_succ_le_succ hfuel)

theorem Returns.bind (hf : Returns f x) (hg : Returns (fun fuel => g fuel x) y) :
    Returns (fun fuel => (f fuel).bind (g fuel)) y := by
  obtain ⟨first, hf⟩ := hf
  obtain ⟨second, hg⟩ := hg
  refine ⟨max first second, fun fuel hfuel => ?_⟩
  have hfirst := hf fuel ((Nat.le_max_left first second).trans hfuel)
  have hsecond := hg fuel ((Nat.le_max_right first second).trans hfuel)
  exact (congrArg (fun r => r.bind (g fuel)) hfirst).trans hsecond

theorem Returns.map {g : α → β} (hf : Returns f x) : Returns (fun fuel => (f fuel).map g) (g x) := by
  obtain ⟨enough, hf⟩ := hf
  exact ⟨enough, fun fuel hfuel => congrArg (Option.map g) (hf fuel hfuel)⟩

end Returns

namespace Party

variable {σ ε : Type*} {p : Party σ ε} {w : World σ} {test : σ → Bool}

/-- Waiting ends if the test fails at some access. -/
theorem wait_returns {n : ℕ} (hend : test (p.turn^[n + 1] w).dev = false) :
    ∃ w', Returns (fun fuel => p.wait test fuel w) w' := by
  induction n generalizing w with
  | zero =>
      exact ⟨p.turn w, Returns.of_succ ⟨0, fun fuel _ => if_neg (Bool.eq_false_iff.mp hend)⟩⟩
  | succ n ih =>
      by_cases htest : test (p.turn w).dev = true
      · obtain ⟨w', enough, hwait⟩ := ih (w := p.turn w) hend
        exact ⟨w', Returns.of_succ
          ⟨enough, fun fuel hfuel => (if_pos htest).trans (hwait fuel hfuel)⟩⟩
      · exact ⟨p.turn w, Returns.of_succ ⟨0, fun fuel _ => if_neg htest⟩⟩

/-- What happens again and again happens. -/
theorem turns_event {I G : σ → Prop} {e : ε} (hon : ∀ s e, I s → I (p.on s e))
    (hgoal : ∀ s e, G s → G (p.on s e)) (hevent : ∀ s, I s → G (p.on s e)) (h : I w.dev)
    (hagain : ∀ n, ∃ m, n ≤ m ∧ e ∈ p.env m) : ∃ n, G (p.turn^[n + 1] w).dev := by
  obtain ⟨m, hm, hmem⟩ := hagain w.now
  obtain ⟨n, rfl⟩ := Nat.exists_eq_add_of_le hm
  refine ⟨n, ?_⟩
  rw [Function.iterate_succ_apply']
  show G ((p.env (p.turn^[n] w).now).foldl p.on (p.turn^[n] w).dev)
  rw [turns_now]
  have hstart := turns_inv (w := w) hon h n
  obtain ⟨before, after, hsplit⟩ := List.append_of_mem hmem
  rw [hsplit, List.foldl_append, List.foldl_cons]
  have hbefore := foldl_inv hon hstart before
  exact foldl_inv hgoal (hevent _ hbefore) after

end Party

end Interleave
