import Mathlib.Data.List.Range

/-!
# Clocked traces

A synchronous circuit is a step function over an input that has one value for each clock. `trace`
gives its state at every clock, `logged` the words that an output handed over during some clocks, and
the two rules below carry a one-clock lemma to all clocks.
-/

namespace Clocked

variable {σ ι β : Type} {step : σ → ι → σ} {s : σ} {input : ℕ → ι}

/-- The state before clock `t`. -/
def trace (step : σ → ι → σ) (s : σ) (input : ℕ → ι) : ℕ → σ
  | 0 => s
  | t + 1 => step (trace step s input t) (input t)

theorem trace_invariant (Inv : σ → Prop) (hstart : Inv s)
    (hstep : ∀ s t, Inv s → Inv (step s (input t))) (t : ℕ) : Inv (trace step s input t) := by
  induction t with
  | zero => exact hstart
  | succ t ih => exact hstep _ _ ih

/-- The state depends on the inputs of the clocks before it only. -/
theorem trace_congr {input' : ℕ → ι} {t : ℕ} (h : ∀ u < t, input u = input' u) :
    trace step s input t = trace step s input' t := by
  induction t with
  | zero => rfl
  | succ t ih => rw [trace, trace, ih fun u hu => h u (Nat.lt_succ_of_lt hu), h t (Nat.lt_succ_self t)]

/-- What holds of a clock and the state before it, as long as every step up to `stop` keeps it. -/
theorem trace_induction (Inv : ℕ → σ → Prop) {stop : ℕ} (hstart : Inv 0 s)
    (hstep : ∀ t < stop, Inv t (trace step s input t) →
      Inv (t + 1) (step (trace step s input t) (input t))) :
    ∀ t ≤ stop, Inv t (trace step s input t) := by
  intro t
  induction t with
  | zero => exact fun _ => hstart
  | succ t ih => exact fun hle => hstep t hle (ih (by omega))

/-- A component of a circuit runs on what its ports see. -/
theorem trace_component {τ κ : Type} {step' : τ → κ → τ} (component : σ → τ) (port : σ → ι → κ)
    (h : ∀ s i, component (step s i) = step' (component s) (port s i)) (t : ℕ) :
    component (trace step s input t) =
      trace step' (component s) (fun t => port (trace step s input t) (input t)) t := by
  induction t with
  | zero => rfl
  | succ t ih => rw [trace, h, ih, trace]

/-- The words that `out` hands over in the clocks `t₀`, …, `t₀ + n - 1`. -/
def logged (step : σ → ι → σ) (s : σ) (input : ℕ → ι) (out : σ → ι → Option β) (t₀ n : ℕ) :
    List β :=
  (List.range' t₀ n).filterMap fun t => out (trace step s input t) (input t)

@[simp]
theorem logged_zero (out : σ → ι → Option β) (t₀ : ℕ) : logged step s input out t₀ 0 = [] := rfl

theorem logged_succ (out : σ → ι → Option β) (t₀ n : ℕ) :
    logged step s input out t₀ (n + 1) =
      logged step s input out t₀ n ++
        (out (trace step s input (t₀ + n)) (input (t₀ + n))).toList := by
  rw [logged, List.range'_concat, List.filterMap_append, Nat.one_mul, logged]
  cases hout : out (trace step s input (t₀ + n)) (input (t₀ + n)) <;>
    simp only [List.filterMap_cons, hout, List.filterMap_nil, Option.toList]

theorem logged_append (out : σ → ι → Option β) (t₀ m n : ℕ) :
    logged step s input out t₀ (m + n) =
      logged step s input out t₀ m ++ logged step s input out (t₀ + m) n := by
  induction n with
  | zero => rw [Nat.add_zero, logged_zero, List.append_nil]
  | succ n ih => rw [← Nat.add_assoc, logged_succ, ih, logged_succ, List.append_assoc, Nat.add_assoc]

theorem logged_eq_filterMap {out : σ → ι → Option β} {f : ℕ → Option β} {t₀ n : ℕ}
    (h : ∀ i < n, out (trace step s input (t₀ + i)) (input (t₀ + i)) = f i) :
    logged step s input out t₀ n = (List.range n).filterMap f := by
  induction n with
  | zero => rfl
  | succ n ih =>
      rw [logged_succ, ih fun i hi => h i (Nat.lt_succ_of_lt hi), h n (Nat.lt_succ_self n),
        List.range_succ, List.filterMap_append]
      cases hf : f n <;> simp only [List.filterMap_cons, hf, List.filterMap_nil, Option.toList]

theorem filterMap_range_eq_of_none {f : ℕ → Option β} {m n : ℕ} (hmn : m ≤ n)
    (h : ∀ i, m ≤ i → i < n → f i = none) :
    (List.range n).filterMap f = (List.range m).filterMap f := by
  induction n, hmn using Nat.le_induction with
  | base => rfl
  | succ n hmn ih =>
      rw [List.range_succ, List.filterMap_append, ih fun i hm hi => h i hm (Nat.lt_succ_of_lt hi)]
      simp [h n hmn (Nat.lt_succ_self n)]

theorem filterMap_range_stride {f : ℕ → Option β} {d : ℕ} (hd : 0 < d)
    (h : ∀ i, i % d ≠ 0 → f i = none) (k : ℕ) :
    (List.range (d * k + 1)).filterMap f = (List.range (k + 1)).filterMap fun i => f (d * i) := by
  induction k with
  | zero => rfl
  | succ k ih =>
      have hquiet : (List.range (d * (k + 1))).filterMap f = (List.range (d * k + 1)).filterMap f := by
        refine filterMap_range_eq_of_none (by rw [Nat.mul_succ]; omega) fun i hlo hhi => h i ?_
        obtain ⟨j, rfl⟩ : ∃ j, i = d * k + j := ⟨i - d * k, by omega⟩
        rw [Nat.mul_succ] at hhi
        rw [Nat.mul_add_mod, Nat.mod_eq_of_lt (by omega)]
        omega
      rw [List.range_succ, List.filterMap_append, hquiet, ih, List.range_succ (n := k + 1),
        List.filterMap_append]
      rfl

theorem logged_isPrefix (out : σ → ι → Option β) (t₀ : ℕ) {m n : ℕ} (hmn : m ≤ n) :
    logged step s input out t₀ m <+: logged step s input out t₀ n := by
  induction n, hmn using Nat.le_induction with
  | base => exact List.prefix_rfl
  | succ n _ ih =>
      rw [logged_succ]
      exact ih.trans (List.prefix_append _ _)

/-- A relation between two logs and the state that every clock extends, from some clock on. -/
theorem logged_invariant {γ : Type} {out : σ → ι → Option β} {out' : σ → ι → Option γ}
    {Rel : List β → List γ → σ → Prop} (Env : σ → ι → Prop) {t₀ m n : ℕ} (hmn : m ≤ n)
    (hstart : Rel (logged step s input out t₀ m) (logged step s input out' t₀ m)
      (trace step s input (t₀ + m)))
    (hstep : ∀ log log' s i, Rel log log' s → Env s i →
      Rel (log ++ (out s i).toList) (log' ++ (out' s i).toList) (step s i))
    (henv : ∀ t, t₀ + m ≤ t → t < t₀ + n → Env (trace step s input t) (input t)) :
    Rel (logged step s input out t₀ n) (logged step s input out' t₀ n)
      (trace step s input (t₀ + n)) := by
  induction n, hmn using Nat.le_induction with
  | base => exact hstart
  | succ n hmn ih =>
      rw [logged_succ, logged_succ]
      exact hstep _ _ _ _ (ih fun t hle hlt => henv t hle (by omega))
        (henv (t₀ + n) (by omega) (by omega))

end Clocked
