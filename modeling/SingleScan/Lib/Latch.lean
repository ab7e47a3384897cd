import Mathlib.Logic.Function.Basic
import Mathlib.Order.Nat

/-!
# Alarms over windows of samples

An alarm is computed every `d` samples from the last `d` of them, but samples are recorded only while it is
off. So it stays on once it is: it says whether any window so far has raised it.
-/

namespace Latch

variable {α : Type} {d : ℕ}

/-- An alarm over the samples `x 0`, `x 1`, …, with the array it records them in. -/
structure Recorder (d : ℕ) (raises : (Fin d → α) → Prop) (x : ℕ → α) (alarm : ℕ → Prop)
    (samples : ℕ → Fin d → α) : Prop where
  pos : 0 < d
  off : ¬ alarm 0
  frozen : ∀ n, alarm n → samples (n + 1) = samples n
  recorded : ∀ n, ¬ alarm n →
    samples (n + 1) = Function.update (samples n) ⟨n % d, Nat.mod_lt n pos⟩ (x n)
  inside : ∀ n, n % d + 1 ≠ d → (alarm (n + 1) ↔ alarm n)
  ends : ∀ n, n % d + 1 = d → (alarm (n + 1) ↔ raises (samples (n + 1)))

/-- The samples of window `w`. -/
def window (d : ℕ) (x : ℕ → α) (w : ℕ) : Fin d → α := fun i => x (d * w + i)

section Recorder

variable {raises : (Fin d → α) → Prop} {x : ℕ → α} {alarm : ℕ → Prop} {samples : ℕ → Fin d → α}

theorem mul_add_mod {w i : ℕ} (hi : i < d) : (d * w + i) % d = i := by
  rw [Nat.mul_add_mod, Nat.mod_eq_of_lt hi]

theorem Recorder.alarm_inside (h : Recorder d raises x alarm samples) (w : ℕ) {i : ℕ} (hi : i < d) :
    alarm (d * w + i) ↔ alarm (d * w) := by
  induction i with
  | zero => rfl
  | succ i ih =>
      have hmod : (d * w + i) % d = i := mul_add_mod (by omega)
      rw [← ih (by omega)]
      exact h.inside (d * w + i) (by omega)

/-- A window that begins with the alarm on changes no sample. -/
theorem Recorder.samples_frozen (h : Recorder d raises x alarm samples) {w : ℕ}
    (hon : alarm (d * w)) {i : ℕ} (hi : i ≤ d) : samples (d * w + i) = samples (d * w) := by
  induction i with
  | zero => rfl
  | succ i ih =>
      rw [← ih (by omega)]
      exact h.frozen _ ((h.alarm_inside w (by omega)).2 hon)

/-- A window that begins with the alarm off is recorded. -/
theorem Recorder.samples_recorded (h : Recorder d raises x alarm samples) {w : ℕ}
    (hoff : ¬ alarm (d * w)) {i : ℕ} (hi : i ≤ d) (j : Fin d) (hj : j.val < i) :
    samples (d * w + i) j = x (d * w + j) := by
  induction i with
  | zero => omega
  | succ i ih =>
      have hmod : (d * w + i) % d = i := mul_add_mod (by omega)
      have hstep := h.recorded (d * w + i) fun hon => hoff ((h.alarm_inside w (by omega)).1 hon)
      rw [← Nat.add_assoc, hstep]
      by_cases hlast : j.val = i
      · have hindex : j = ⟨(d * w + i) % d, Nat.mod_lt _ h.pos⟩ := Fin.ext (by rw [hlast]; exact hmod.symm)
        rw [← hindex, Function.update_self, hlast]
      · have hindex : j ≠ ⟨(d * w + i) % d, Nat.mod_lt _ h.pos⟩ := fun heq =>
          hlast ((congrArg Fin.val heq).trans hmod)
        rw [Function.update_of_ne hindex]
        exact ih (by omega) (by omega)

/-- The alarm at the end of a window is that of the recorded samples. -/
theorem Recorder.alarm_end (h : Recorder d raises x alarm samples) (w : ℕ) :
    alarm (d * (w + 1)) ↔ raises (samples (d * (w + 1))) := by
  have hpos := h.pos
  have hmod : (d * w + (d - 1)) % d = d - 1 := mul_add_mod (by omega)
  have hlast : d * (w + 1) = d * w + (d - 1) + 1 := by
    rw [Nat.mul_succ]
    omega
  rw [hlast]
  exact h.ends _ (by omega)

theorem Recorder.raised (h : Recorder d raises x alarm samples) {w : ℕ} (hon : alarm (d * w)) :
    raises (samples (d * w)) := by
  cases w with
  | zero => exact absurd hon h.off
  | succ w => exact (h.alarm_end w).1 hon

theorem Recorder.alarm_step (h : Recorder d raises x alarm samples) (w : ℕ) :
    alarm (d * (w + 1)) ↔ alarm (d * w) ∨ raises (window d x w) := by
  rw [h.alarm_end, Nat.mul_succ]
  by_cases hon : alarm (d * w)
  · rw [h.samples_frozen hon le_rfl]
    exact iff_of_true (h.raised hon) (.inl hon)
  · have hwindow : samples (d * w + d) = window d x w :=
      funext fun j => h.samples_recorded hon le_rfl j j.isLt
    rw [hwindow]
    exact ⟨.inr, fun h => h.resolve_left hon⟩

/-- **The latch.** -/
theorem Recorder.alarm_iff (h : Recorder d raises x alarm samples) (w : ℕ) :
    alarm (d * (w + 1)) ↔ ∃ v ≤ w, raises (window d x v) := by
  induction w with
  | zero =>
      rw [h.alarm_step]
      constructor
      · exact fun hor => ⟨0, le_rfl, hor.resolve_left h.off⟩
      · rintro ⟨v, hv, hraises⟩
        obtain rfl := Nat.le_zero.1 hv
        exact .inr hraises
  | succ w ih =>
      rw [h.alarm_step, ih]
      constructor
      · rintro (⟨v, hv, hraises⟩ | hraises)
        · exact ⟨v, Nat.le_succ_of_le hv, hraises⟩
        · exact ⟨w + 1, le_rfl, hraises⟩
      · rintro ⟨v, hv, hraises⟩
        rcases Nat.lt_or_eq_of_le hv with hlt | rfl
        · exact .inl ⟨v, Nat.le_of_lt_succ hlt, hraises⟩
        · exact .inr hraises

/-- The alarm is a condition on the last window alone exactly if no window that meets it is followed by
one that does not, and no other window raises it. -/
theorem Recorder.follows_iff (h : Recorder d raises x alarm samples) (bad : (Fin d → α) → Prop)
    (himplies : ∀ f, bad f → raises f) :
    (∀ w, alarm (d * (w + 1)) ↔ bad (window d x w)) ↔
      ∀ w, raises (window d x w) → bad (window d x w) ∧ bad (window d x (w + 1)) := by
  constructor
  · intro htracks w hraises
    exact ⟨(htracks w).1 ((h.alarm_iff w).2 ⟨w, le_rfl, hraises⟩),
      (htracks (w + 1)).1 ((h.alarm_iff (w + 1)).2 ⟨w, Nat.le_succ w, hraises⟩)⟩
  · intro hstays w
    rw [h.alarm_iff]
    constructor
    · rintro ⟨v, hv, hraises⟩
      induction w, hv using Nat.le_induction with
      | base => exact (hstays v hraises).1
      | succ w _ ih => exact (hstays w (himplies _ ih)).2
    · exact fun hbad => ⟨w, le_rfl, himplies _ hbad⟩

end Recorder

end Latch
