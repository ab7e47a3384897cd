import Mathlib.Data.List.DropRight
import Mathlib.Data.List.Infix

/-!
# Sampled signals

`streak b xs` is how often the last samples in `xs` were `b`, one after the other. A signal that has a
sample for every clock is a function: `ones` counts the set samples that end before a clock, and `falls`
says that a run of them ends there.
-/

namespace Sampled

section Streak

variable {α : Type*} [DecidableEq α]

def streak (b : α) (xs : List α) : ℕ := (xs.rtakeWhile fun x => x = b).length

theorem streak_nil (b : α) : streak b [] = 0 := by
  rw [streak, List.rtakeWhile_nil, List.length_nil]

theorem streak_concat (b x : α) (xs : List α) :
    streak b (xs ++ [x]) = if x = b then streak b xs + 1 else 0 := by
  unfold streak
  rw [List.rtakeWhile_concat]
  by_cases hx : x = b <;> simp [hx]

theorem replicate_suffix_iff (b : α) (n : ℕ) (xs : List α) :
    List.replicate n b <:+ xs ↔ n ≤ streak b xs := by
  induction xs using List.reverseRecOn generalizing n with
  | nil => rw [streak_nil, List.suffix_nil, List.replicate_eq_nil_iff, Nat.le_zero]
  | append_singleton xs x ih =>
      rw [streak_concat]
      cases n with
      | zero => simp
      | succ n =>
          rw [List.replicate_succ', List.suffix_concat_iff]
          by_cases hx : x = b
          · subst hx
            simp [ih]
          · simp [hx, Ne.symm hx]

end Streak

/-! ### Runs of set samples -/

section Runs

variable (bit : ℕ → Bool)

/-- How many samples before `j` were set, one after the other. -/
def ones : ℕ → ℕ
  | 0 => 0
  | j + 1 => if bit j then ones j + 1 else 0

/-- A run ends before sample `j`. -/
def falls (j : ℕ) : Bool := !bit j && decide (0 < ones bit j)

variable {bit}

theorem ones_succ_of_set {j : ℕ} (h : bit j = true) : ones bit (j + 1) = ones bit j + 1 := by
  rw [ones, if_pos h]

theorem ones_succ_of_clear {j : ℕ} (h : bit j = false) : ones bit (j + 1) = 0 := by
  rw [ones, if_neg (by simp [h])]

theorem ones_le (j : ℕ) : ones bit j ≤ j := by
  induction j with
  | zero => exact Nat.le_refl 0
  | succ j ih =>
      rw [ones]
      split <;> omega

theorem falls_zero : falls bit 0 = false := by simp [falls, ones]

theorem clear_of_falls {j : ℕ} (h : falls bit j = true) : bit j = false := by
  simp only [falls, Bool.and_eq_true, Bool.not_eq_true'] at h
  exact h.1

theorem ones_pos_of_falls {j : ℕ} (h : falls bit j = true) : 0 < ones bit j := by
  simp only [falls, Bool.and_eq_true, decide_eq_true_eq] at h
  exact h.2

/-- Two runs do not end one sample apart. -/
theorem not_falls_succ {j : ℕ} (h : falls bit j = true) : falls bit (j + 1) = false := by
  rw [falls, ones_succ_of_clear (clear_of_falls h)]
  simp

/-- Of two runs that end two samples apart, the second has one sample. -/
theorem ones_of_falls_two {j : ℕ} (h : falls bit j = true) (h2 : falls bit (j + 2) = true) :
    ones bit (j + 2) = 1 := by
  have hpos := ones_pos_of_falls h2
  have hclear := ones_succ_of_clear (clear_of_falls h)
  rw [ones] at hpos ⊢
  split at hpos
  · rename_i hset
    rw [if_pos hset, hclear]
  · omega

variable (bit)

/-- The last run that ended before `k`, from its first sample to the sample behind its last. -/
def lastRun : ℕ → ℕ × ℕ
  | 0 => (0, 0)
  | k + 1 => if falls bit k then (k - ones bit k, k) else lastRun k

variable {bit}

theorem lastRun_of_falls {k : ℕ} (h : falls bit k = true) :
    lastRun bit (k + 1) = (k - ones bit k, k) := by rw [lastRun, if_pos h]

theorem lastRun_of_not_falls {k : ℕ} (h : falls bit k = false) :
    lastRun bit (k + 1) = lastRun bit k := by rw [lastRun, if_neg (by simp [h])]

theorem lastRun_pred {k : ℕ} (h : falls bit (k - 1) = false) :
    lastRun bit k = lastRun bit (k - 1) := by
  cases k with
  | zero => rfl
  | succ k => exact lastRun_of_not_falls h

theorem lastRun_bounds (k : ℕ) :
    (lastRun bit k).1 ≤ (lastRun bit k).2 ∧ (lastRun bit k).2 ≤ k := by
  induction k with
  | zero => exact ⟨Nat.le_refl 0, Nat.le_refl 0⟩
  | succ k ih =>
      rw [lastRun]
      split
      · exact ⟨Nat.sub_le k _, Nat.le_succ k⟩
      · exact ⟨ih.1, ih.2.trans (Nat.le_succ k)⟩

/-! What has come in decides. -/

section Causal

variable {bit' : ℕ → Bool}

theorem ones_congr {j : ℕ} (h : ∀ i < j, bit i = bit' i) : ones bit j = ones bit' j := by
  induction j with
  | zero => rfl
  | succ j ih => rw [ones, ones, h j (Nat.lt_succ_self j), ih fun i hi => h i (by omega)]

theorem falls_congr {j : ℕ} (h : ∀ i ≤ j, bit i = bit' i) : falls bit j = falls bit' j := by
  rw [falls, falls, h j (Nat.le_refl j), ones_congr fun i hi => h i (by omega)]

end Causal

end Runs

/-! ### Selections from one list -/

section Select

variable {α β : Type*} {f g : α → Option β} {l : List α}

theorem length_filterMap_le (h : ∀ a ∈ l, (f a).isSome → (g a).isSome) :
    (l.filterMap f).length ≤ (l.filterMap g).length := by
  induction l with
  | nil => exact Nat.le_refl 0
  | cons a l ih =>
      have htail := ih fun b hb => h b (List.mem_cons_of_mem a hb)
      have hhead := h a List.mem_cons_self
      rw [List.filterMap_cons, List.filterMap_cons]
      cases hf : f a with
      | none => cases g a with
        | none => exact htail
        | some y => exact htail.trans (Nat.le_succ _)
      | some x =>
          obtain ⟨y, hg⟩ := Option.isSome_iff_exists.mp (hhead (by rw [hf]; rfl))
          rw [hg]
          exact Nat.succ_le_succ htail

/-- Where one selection takes at least what the other takes, they are equal only element by element. -/
theorem filterMap_eq_iff (h : ∀ a ∈ l, (f a).isSome → (g a).isSome) :
    l.filterMap f = l.filterMap g ↔ ∀ a ∈ l, f a = g a := by
  refine ⟨fun heq => ?_, fun heq => List.filterMap_congr heq⟩
  induction l with
  | nil => exact fun a ha => absurd ha List.not_mem_nil
  | cons a l ih =>
      have htail : ∀ b ∈ l, (f b).isSome → (g b).isSome :=
        fun b hb => h b (List.mem_cons_of_mem a hb)
      have hlength := length_filterMap_le htail
      rw [List.filterMap_cons, List.filterMap_cons] at heq
      have hhead : f a = g a ∧ l.filterMap f = l.filterMap g := by
        cases hf : f a with
        | none =>
            cases hg : g a with
            | none =>
                rw [hf, hg] at heq
                exact ⟨rfl, heq⟩
            | some y =>
                rw [hf, hg] at heq
                have := congrArg List.length heq
                simp only [List.length_cons] at this
                omega
        | some x =>
            obtain ⟨y, hg⟩ := Option.isSome_iff_exists.mp (h a List.mem_cons_self (by rw [hf]; rfl))
            rw [hf, hg] at heq
            simp only [List.cons.injEq] at heq
            exact ⟨by rw [hg, heq.1], heq.2⟩
      intro b hb
      rcases List.mem_cons.mp hb with rfl | hb
      · exact hhead.1
      · exact ih htail hhead.2 b hb

/-- The first elements of the wider selection are those of the narrower one, if they belong to it. -/
theorem take_filter_eq {p q : α → Bool} {n : ℕ} (hpq : ∀ a ∈ l, p a = true → q a = true)
    (h : ∀ a ∈ (l.filter q).take n, p a = true) : (l.filter p).take n = (l.filter q).take n := by
  induction l generalizing n with
  | nil => rfl
  | cons a l ih =>
      have htail : ∀ b ∈ l, p b = true → q b = true := fun b hb => hpq b (List.mem_cons_of_mem a hb)
      cases n with
      | zero => rfl
      | succ n =>
          cases hq : q a with
          | false =>
              have hp : p a = false := by
                rw [Bool.eq_false_iff]
                intro hp
                rw [hpq a List.mem_cons_self hp] at hq
                exact Bool.false_ne_true hq.symm
              have hskip : (a :: l).filter q = l.filter q := List.filter_cons_of_neg (by simp [hq])
              have hskip' : (a :: l).filter p = l.filter p := List.filter_cons_of_neg (by simp [hp])
              rw [hskip] at h ⊢
              rw [hskip']
              exact ih htail h
          | true =>
              have hkeep : (a :: l).filter q = a :: l.filter q := List.filter_cons_of_pos hq
              rw [hkeep, List.take_succ_cons] at h ⊢
              have hkeep' : (a :: l).filter p = a :: l.filter p :=
                List.filter_cons_of_pos (h a List.mem_cons_self)
              rw [hkeep', List.take_succ_cons, ih htail fun b hb => h b (List.mem_cons_of_mem a hb)]

/-- In a list in order, what comes before one of the first elements is one of them. -/
theorem mem_take_of_lt {l : List ℕ} (hl : l.Pairwise (· < ·)) {n a b : ℕ} (ha : a ∈ l)
    (hb : b ∈ l.take n) (hlt : a < b) : a ∈ l.take n := by
  rw [← List.take_append_drop n l, List.mem_append] at ha
  rcases ha with ha | ha
  · exact ha
  · rw [← List.take_append_drop n l, List.pairwise_append] at hl
    exact absurd (hl.2.2 b hb a ha) (by omega)

end Select

end Sampled
