import Mathlib.Order.Monotone.Basic
import SingleScan.CycleCtrl

/-!
# The firing schedule

What `cycle_ctrl` fires is set by `offset` alone: as long as no pattern is loaded, every pulse is
followed by the next one `123 + n` clocks later, where `n` are the low three bits of the nibble that has
just come down. A pattern is loaded if bit 31 of `laser_presdo` changes, and only then.
-/

namespace SingleScan.CycleCtrl

/-! ### The nibbles of a pattern -/

/-- The low three bits of nibble `j`. -/
def nibble (o : BitVec 240) (j : ℕ) : ℕ := (o.extractLsb' (4 * j) 3).toNat

/-- The nibbles in the order they come up: from the highest one down, over and over again. -/
def scheduled (o : BitVec 240) (k : ℕ) : ℕ := nibble o (59 - k % 60)

theorem nibble_lt (o : BitVec 240) (j : ℕ) : nibble o j < 8 := (o.extractLsb' (4 * j) 3).isLt

theorem nibble_rotated_zero (o : BitVec 240) : nibble (rotated o) 0 = nibble o 59 := by
  unfold nibble
  congr 1
  apply BitVec.eq_of_getLsbD_eq
  intro i hi
  have hlow : i < 4 := by omega
  simp only [rotated, BitVec.getLsbD_extractLsb', BitVec.getLsbD_append, hi, hlow, Nat.mul_zero,
    Nat.zero_add, decide_true, Bool.true_and]
  rfl

theorem nibble_rotated_succ (o : BitVec 240) {j : ℕ} (hj : j < 59) :
    nibble (rotated o) (j + 1) = nibble o j := by
  unfold nibble
  congr 1
  apply BitVec.eq_of_getLsbD_eq
  intro i hi
  have hhigh : ¬4 * (j + 1) + i < 4 := by omega
  have hin : 4 * (j + 1) + i - 4 < 236 := by omega
  have hplace : 0 + (4 * (j + 1) + i - 4) = 4 * j + i := by omega
  simp only [rotated, BitVec.getLsbD_extractLsb', BitVec.getLsbD_append, hi, hhigh, hin, hplace,
    decide_true, Bool.true_and, if_false]

/-- A turn by a nibble is a step in the schedule. -/
theorem scheduled_rotated (o : BitVec 240) (k : ℕ) :
    scheduled (rotated o) k = scheduled o (k + 1) := by
  unfold scheduled
  by_cases hlast : k % 60 = 59
  · have hnext : (k + 1) % 60 = 0 := by omega
    rw [hlast, hnext, Nat.sub_self, nibble_rotated_zero]
  · have hplace : 59 - k % 60 = 59 - (k + 1) % 60 + 1 := by omega
    rw [hplace, nibble_rotated_succ o (by omega)]

theorem scheduled_iterate (o : BitVec 240) (m k : ℕ) :
    scheduled (rotated^[m] o) k = scheduled o (m + k) := by
  induction m generalizing o with
  | zero => rw [Function.iterate_zero_apply, Nat.zero_add]
  | succ m ih => rw [Function.iterate_succ_apply, ih, scheduled_rotated, Nat.add_right_comm]

/-- The lowest nibble is the last one of a round. -/
theorem nibble_zero (o : BitVec 240) : nibble o 0 = scheduled o 59 := rfl

theorem scheduled_round (o : BitVec 240) (k : ℕ) : scheduled o (60 + k) = scheduled o k := by
  unfold scheduled
  rw [Nat.add_mod_left]

theorem scheduled_rounds (o : BitVec 240) (n k : ℕ) :
    scheduled o (60 * n + k) = scheduled o k := by
  induction n with
  | zero => rw [Nat.mul_zero, Nat.zero_add]
  | succ n ih => rw [show 60 * (n + 1) + k = 60 + (60 * n + k) by omega, scheduled_round, ih]

/-- Two patterns with one schedule, up to the place where it starts. -/
def Alike (o p : BitVec 240) : Prop := ∃ c, ∀ k, scheduled o k = scheduled p (c + k)

theorem Alike.trans {o q p : BitVec 240} (h : Alike o q) (h' : Alike q p) : Alike o p := by
  obtain ⟨c, hc⟩ := h
  obtain ⟨d, hd⟩ := h'
  exact ⟨d + c, fun k => by rw [hc, hd, Nat.add_assoc]⟩

/-- The schedule has period 60, so the start of either pattern can be made up for. -/
theorem alike_of_shifted {o p : BitVec 240} {m c : ℕ}
    (h : ∀ k, scheduled o (m + k) = scheduled p (c + k)) : Alike o p := by
  refine ⟨c + 59 * m, fun k => ?_⟩
  rw [Nat.add_assoc, ← h, ← scheduled_rounds o m k]
  congr 1
  omega

theorem Alike.symm {o p : BitVec 240} (h : Alike o p) : Alike p o := by
  obtain ⟨c, hc⟩ := h
  refine alike_of_shifted (m := c) (c := 0) fun k => ?_
  rw [← hc, Nat.zero_add]

theorem alike_iterate (o : BitVec 240) (m : ℕ) : Alike (rotated^[m] o) o :=
  ⟨m, scheduled_iterate o m⟩

/-! ### One period -/

/-- The state `n` clocks after the machine has come to a phase. -/
structure At (s : State) (phase : Phase) (n : ℕ) (o : BitVec 240) : Prop where
  cs_eq : s.cs = phase
  cnt_eq : s.stateCnt = BitVec.ofNat 16 n
  offset_eq : s.offset = o

theorem at_self (s : State) : At s s.cs s.stateCnt.toNat s.offset where
  cs_eq := rfl
  cnt_eq := by rw [BitVec.ofNat_toNat, BitVec.setWidth_eq]
  offset_eq := rfl

section Clock

variable {s : State} {i : Input} {n : ℕ} {o : BitVec 240}

theorem At.basic_step (hat : At s .basic n o) (hquiet : s.setLaserPresdo = false)
    (hn : s.stateCnt.toNat ≠ basicNum) : At (step s i) .basic (n + 1) o := by
  obtain ⟨hcs, hcnt, hoffset⟩ := hat
  have hns : s.ns i = .basic := by simp [State.ns, hcs, hn]
  refine ⟨hns, ?_, ?_⟩
  · simp [step, hcs, hns, hcnt, BitVec.ofNat_add]
  · simp [step, hquiet, hcs, hoffset]

theorem At.basic_last (hat : At s .basic n o) (hquiet : s.setLaserPresdo = false)
    (hn : s.stateCnt.toNat = basicNum) : At (step s i) .offset 0 o := by
  obtain ⟨hcs, -, hoffset⟩ := hat
  have hns : s.ns i = .offset := by simp [State.ns, hcs, hn]
  refine ⟨hns, ?_, ?_⟩
  · simp [step, hcs, hns]
  · simp [step, hquiet, hcs, hoffset]

/-- The comparison that ends a period is with the low three bits of the lowest nibble. -/
theorem cnt_eq_iff (s : State) :
    s.stateCnt = (s.offset.extractLsb' 0 3).setWidth 16 ↔ s.stateCnt.toNat = nibble s.offset 0 := by
  have hsmall := nibble_lt s.offset 0
  have hvalue : ((s.offset.extractLsb' 0 3).setWidth 16).toNat = nibble s.offset 0 := by
    rw [BitVec.toNat_setWidth, Nat.mod_eq_of_lt]
    · rfl
    · exact Nat.lt_of_lt_of_le (s.offset.extractLsb' 0 3).isLt (by decide)
  rw [← hvalue, BitVec.toNat_inj]

theorem At.offset_step (hat : At s .offset n o) (hquiet : s.setLaserPresdo = false)
    (hn : s.stateCnt.toNat ≠ nibble o 0) :
    At (step s i) .offset (n + 1) o ∧ s.sendEn i = false := by
  obtain ⟨hcs, hcnt, hoffset⟩ := hat
  rw [← hoffset] at hn
  have hns : s.ns i = .offset := by simp [State.ns, hcs, cnt_eq_iff, hn]
  refine ⟨⟨hns, ?_, ?_⟩, ?_⟩
  · simp [step, hcs, hns, hcnt, BitVec.ofNat_add]
  · simp [step, hquiet, hcs, hoffset]
  · simp [State.sendEn, hns]

theorem At.offset_last (hat : At s .offset n o) (hn : s.stateCnt.toNat = nibble o 0) :
    s.sendEn i = true := by
  obtain ⟨hcs, -, hoffset⟩ := hat
  rw [← hoffset] at hn
  have hns : s.ns i = .idle := by simp [State.ns, hcs, cnt_eq_iff, hn]
  simp [State.sendEn, hcs, hns]

theorem idle_of_sendEn (hsend : s.sendEn i = true) (hquiet : s.setLaserPresdo = false) :
    At (step s i) .idle 0 s.offset := by
  simp only [State.sendEn, Bool.and_eq_true, beq_iff_eq] at hsend
  obtain ⟨hcs, hns⟩ := hsend
  refine ⟨hns, ?_, ?_⟩
  · simp [step, hcs, hns]
  · simp [step, hquiet, hcs]

theorem At.idle_step (hat : At s .idle n o) (hquiet : s.setLaserPresdo = false)
    (henable : i.laserEnable = true) : At (step s i) .basic 0 (rotated o) := by
  obtain ⟨hcs, -, hoffset⟩ := hat
  have hns : s.ns i = .basic := by simp [State.ns, hcs, henable]
  refine ⟨hns, ?_, ?_⟩
  · simp [step, hcs, hns]
  · simp [step, hquiet, hcs, hns, hoffset]

theorem sendEn_of_cs_ne (hcs : s.cs ≠ .offset) : s.sendEn i = false := by
  simp [State.sendEn, hcs]

end Clock

/-! ### From pulse to pulse -/

/-- The state after `t` clocks, from the reset on. -/
def run (input : ℕ → Input) (t : ℕ) : State := Clocked.trace step State.reset input t

theorem run_succ (input : ℕ → Input) (t : ℕ) : run input (t + 1) = step (run input t) (input t) := rfl

/-- The laser is fired at clock `t`. -/
def Fires (input : ℕ → Input) (t : ℕ) : Prop := (run input t).sendEn (input t) = true

section Period

variable {input : ℕ → Input} {a : ℕ} {o : BitVec 240}

theorem basic_at (hquiet : ∀ t ≥ a, (run input t).setLaserPresdo = false)
    (hstart : At (run input a) .basic 0 o) {j : ℕ} (hj : j ≤ 120) :
    At (run input (a + j)) .basic j o := by
  induction j with
  | zero => exact hstart
  | succ j ih =>
      have hbefore := ih (by omega)
      have hcnt : (run input (a + j)).stateCnt.toNat ≠ basicNum := by
        rw [hbefore.cnt_eq, BitVec.toNat_ofNat, basicNum]
        omega
      exact hbefore.basic_step (hquiet _ (by omega)) hcnt

theorem offset_at (hquiet : ∀ t ≥ a, (run input t).setLaserPresdo = false)
    (hstart : At (run input a) .offset 0 o) {j : ℕ} (hj : j ≤ nibble o 0) :
    At (run input (a + j)) .offset j o := by
  induction j with
  | zero => exact hstart
  | succ j ih =>
      have hbefore := ih (by omega)
      have hsmall := nibble_lt o 0
      have hcnt : (run input (a + j)).stateCnt.toNat ≠ nibble o 0 := by
        rw [hbefore.cnt_eq, BitVec.toNat_ofNat]
        omega
      exact (hbefore.offset_step (hquiet _ (by omega)) hcnt).1

/-- **One period.** The pulse that follows a pulse, as long as no pattern is loaded. -/
theorem next_pulse (hquiet : ∀ t ≥ a, (run input t).setLaserPresdo = false) (hfire : Fires input a)
    (henable : (input (a + 1)).laserEnable = true) :
    let n := nibble (rotated (run input a).offset) 0
    Fires input (a + 123 + n) ∧ (run input (a + 123 + n)).offset = rotated (run input a).offset ∧
      ∀ t, a < t → t < a + 123 + n → ¬Fires input t := by
  intro n
  have hsmall : n < 8 := nibble_lt _ 0
  have hidle := idle_of_sendEn hfire (hquiet a le_rfl)
  have hbasic : At (run input (a + 2)) .basic 0 (rotated (run input a).offset) :=
    hidle.idle_step (hquiet (a + 1) (by omega)) henable
  have hlater : ∀ m, ∀ t ≥ a + m, (run input t).setLaserPresdo = false :=
    fun m t ht => hquiet t (by omega)
  have hlast := basic_at (hlater 2) hbasic le_rfl
  have hcnt : (run input (a + 2 + 120)).stateCnt.toNat = basicNum := by rw [hlast.cnt_eq]; rfl
  have hoffset : At (run input (a + 123)) .offset 0 (rotated (run input a).offset) :=
    hlast.basic_last (hquiet _ (by omega)) hcnt
  have hend := offset_at (hlater 123) hoffset (le_refl n)
  have hcntEnd : ∀ j ≤ n, (run input (a + 123 + j)).stateCnt.toNat = j := by
    intro j hj
    rw [(offset_at (hlater 123) hoffset hj).cnt_eq, BitVec.toNat_ofNat]
    omega
  refine ⟨hend.offset_last (hcntEnd n le_rfl), hend.offset_eq, ?_⟩
  intro t hafter hbefore hfires
  obtain h | h | h : t = a + 1 ∨ (∃ j ≤ 120, t = a + 2 + j) ∨ ∃ j < n, t = a + 123 + j := by
    by_cases hone : t = a + 1
    · exact .inl hone
    · by_cases hfixed : t ≤ a + 122
      · exact .inr (.inl ⟨t - (a + 2), by omega, by omega⟩)
      · exact .inr (.inr ⟨t - (a + 123), by omega, by omega⟩)
  · have hcs : (run input t).cs ≠ .offset := by
      rw [h, run_succ, hidle.cs_eq]
      decide
    exact absurd hfires (by rw [Fires, sendEn_of_cs_ne hcs]; decide)
  · obtain ⟨j, hj, rfl⟩ := h
    have hcs : (run input (a + 2 + j)).cs ≠ .offset := by
      rw [(basic_at (hlater 2) hbasic hj).cs_eq]
      decide
    exact absurd hfires (by rw [Fires, sendEn_of_cs_ne hcs]; decide)
  · obtain ⟨j, hj, rfl⟩ := h
    have hne : (run input (a + 123 + j)).stateCnt.toNat ≠ n := by
      rw [hcntEnd j hj.le]
      omega
    have hstill := (offset_at (hlater 123) hoffset hj.le).offset_step
      (i := input (a + 123 + j)) (hquiet _ (by omega)) hne
    exact absurd hfires (by rw [Fires, hstill.2]; decide)

end Period

/-! ### The pulses of a pattern -/

/-- From clock `T` on the laser is fired by the schedule of `p`, from some place in it. -/
def Follows (input : ℕ → Input) (p : BitVec 240) (T : ℕ) : Prop :=
  ∃ f : ℕ → ℕ, ∃ c, T ≤ f 0 ∧ (∀ t ≥ T, Fires input t ↔ ∃ k, f k = t) ∧
    ∀ k, f (k + 1) = f k + (123 + scheduled p (c + k))

section Schedule

variable {input : ℕ → Input} {T : ℕ}

/-- Without a load the pattern turns, and that is all. -/
theorem offset_turned (hquiet : ∀ t ≥ T, (run input t).setLaserPresdo = false) {t : ℕ} (ht : T ≤ t) :
    ∃ m, (run input t).offset = rotated^[m] (run input T).offset := by
  induction t, ht using Nat.le_induction with
  | base => exact ⟨0, rfl⟩
  | succ t ht ih =>
      obtain ⟨m, hm⟩ := ih
      by_cases hturn : (run input t).cs = .idle ∧ (run input t).ns (input t) = .basic
      · refine ⟨m + 1, ?_⟩
        rw [Function.iterate_succ_apply', ← hm]
        simp [run_succ, step, hquiet t ht, hturn]
      · refine ⟨m, ?_⟩
        rw [← hm]
        simp [run_succ, step, hquiet t ht, hturn]

/-- In `OFFSET` the counter comes round to the nibble, even if a load has let it miss it. -/
theorem fires_of_offset (hquiet : ∀ t ≥ T, (run input t).setLaserPresdo = false) (d : ℕ) {t : ℕ}
    (ht : T ≤ t) (hcs : (run input t).cs = .offset)
    (hd : (BitVec.ofNat 16 (nibble (run input t).offset 0) - (run input t).stateCnt).toNat = d) :
    ∃ u ≥ t, Fires input u := by
  have hsmall := nibble_lt (run input t).offset 0
  have hat : At (run input t) .offset (run input t).stateCnt.toNat (run input t).offset :=
    hcs ▸ at_self _
  induction d generalizing t with
  | zero =>
      have heq : (run input t).stateCnt.toNat = nibble (run input t).offset 0 := by
        simp only [BitVec.toNat_sub, BitVec.toNat_ofNat] at hd
        omega
      exact ⟨t, le_rfl, hat.offset_last heq⟩
  | succ d ih =>
      have hne : (run input t).stateCnt.toNat ≠ nibble (run input t).offset 0 := by
        simp only [BitVec.toNat_sub, BitVec.toNat_ofNat] at hd
        omega
      obtain ⟨hcs', hcnt', hoffset'⟩ :=
        (hat.offset_step (i := input t) (hquiet t ht) hne).1
      have hnear : (BitVec.ofNat 16 (nibble (run input (t + 1)).offset 0)
          - (run input (t + 1)).stateCnt).toNat = d := by
        rw [run_succ, hoffset', hcnt']
        simp only [BitVec.toNat_sub, BitVec.toNat_ofNat] at hd ⊢
        omega
      obtain ⟨u, hu, hfires⟩ := ih (Nat.le_succ_of_le ht) hcs' hnear (nibble_lt _ 0)
        (hcs' ▸ at_self _)
      exact ⟨u, Nat.le_of_succ_le hu, hfires⟩

theorem offset_of_basic (hquiet : ∀ t ≥ T, (run input t).setLaserPresdo = false) (d : ℕ) {t : ℕ}
    (ht : T ≤ t) (hcs : (run input t).cs = .basic)
    (hd : (BitVec.ofNat 16 basicNum - (run input t).stateCnt).toNat = d) :
    ∃ u ≥ t, (run input u).cs = .offset := by
  have hat : At (run input t) .basic (run input t).stateCnt.toNat (run input t).offset :=
    hcs ▸ at_self _
  induction d generalizing t with
  | zero =>
      have heq : (run input t).stateCnt.toNat = basicNum := by
        simp only [BitVec.toNat_sub, BitVec.toNat_ofNat, basicNum] at hd ⊢
        omega
      exact ⟨t + 1, Nat.le_succ t, (hat.basic_last (hquiet t ht) heq).cs_eq⟩
  | succ d ih =>
      have hne : (run input t).stateCnt.toNat ≠ basicNum := by
        simp only [BitVec.toNat_sub, BitVec.toNat_ofNat, basicNum] at hd ⊢
        omega
      obtain ⟨hcs', hcnt', -⟩ := hat.basic_step (i := input t) (hquiet t ht) hne
      have hnear : (BitVec.ofNat 16 basicNum - (run input (t + 1)).stateCnt).toNat = d := by
        rw [run_succ, hcnt']
        simp only [BitVec.toNat_sub, BitVec.toNat_ofNat, basicNum] at hd ⊢
        omega
      obtain ⟨u, hu, hoffset⟩ := ih (Nat.le_succ_of_le ht) hcs' hnear
        (hcs' ▸ at_self _)
      exact ⟨u, Nat.le_of_succ_le hu, hoffset⟩

/-- An enabled laser fires again. -/
theorem exists_fires (hquiet : ∀ t ≥ T, (run input t).setLaserPresdo = false)
    (henable : ∀ t ≥ T, (input t).laserEnable = true) : ∃ t ≥ T, Fires input t := by
  have hbasic : ∀ t ≥ T, (run input t).cs = .basic → ∃ u ≥ t, Fires input u := by
    intro t ht hcs
    obtain ⟨u, hu, hoffset⟩ := offset_of_basic hquiet _ ht hcs rfl
    obtain ⟨v, hv, hfires⟩ := fires_of_offset hquiet _ (ht.trans hu) hoffset rfl
    exact ⟨v, hu.trans hv, hfires⟩
  have hidle : ∀ t ≥ T, (run input t).cs = .idle → ∃ u ≥ t, Fires input u := by
    intro t ht hcs
    have hnext : (run input (t + 1)).cs = .basic := by
      simp [run_succ, step, State.ns, hcs, henable t ht]
    obtain ⟨u, hu, hfires⟩ := hbasic (t + 1) (Nat.le_succ_of_le ht) hnext
    exact ⟨u, Nat.le_of_succ_le hu, hfires⟩
  cases hcs : (run input T).cs with
  | idle => exact hidle T le_rfl hcs
  | basic => exact hbasic T le_rfl hcs
  | offset => exact fires_of_offset hquiet _ le_rfl hcs rfl
  | «over» =>
      have hnext : (run input (T + 1)).cs = .idle := by simp [run_succ, step, State.ns, hcs]
      obtain ⟨u, hu, hfires⟩ := hidle (T + 1) (Nat.le_succ T) hnext
      exact ⟨u, Nat.le_of_succ_le hu, hfires⟩

/-- A pulse and the one behind it, in the terms of the schedule. -/
theorem next_scheduled (hquiet : ∀ t ≥ T, (run input t).setLaserPresdo = false)
    (henable : ∀ t ≥ T, (input t).laserEnable = true) {a k : ℕ} {o : BitVec 240} (ha : T ≤ a)
    (hfire : Fires input a) (hoffset : (run input a).offset = rotated^[k] o) :
    let b := a + (123 + scheduled o k)
    Fires input b ∧ (run input b).offset = rotated^[k + 1] o ∧
      ∀ t, a < t → t < b → ¬Fires input t := by
  have hturned : rotated (run input a).offset = rotated^[k + 1] o := by
    rw [hoffset, ← Function.iterate_succ_apply' rotated]
  have hnibble : nibble (rotated^[k + 1] o) 0 = scheduled o k := by
    rw [nibble_zero, scheduled_iterate, show k + 1 + 59 = 60 + k by omega, scheduled_round]
  have hperiod := next_pulse (fun t ht => hquiet t (ha.trans ht)) hfire (henable _ (by omega))
  simp only [hturned, hnibble, Nat.add_assoc] at hperiod
  exact hperiod

/-- The pulse `k` behind the one at clock `a`. -/
def pulse (a : ℕ) (o : BitVec 240) : ℕ → ℕ
  | 0 => a
  | k + 1 => pulse a o k + (123 + scheduled o k)

theorem exists_pulse_le (a : ℕ) (o : BitVec 240) {t : ℕ} (ht : a ≤ t) :
    ∃ k, pulse a o k ≤ t ∧ t < pulse a o (k + 1) := by
  induction t, ht using Nat.le_induction with
  | base => exact ⟨0, le_rfl, by simp only [pulse]; omega⟩
  | succ t _ ih =>
      obtain ⟨k, hle, hlt⟩ := ih
      by_cases hstay : t + 1 < pulse a o (k + 1)
      · exact ⟨k, Nat.le_succ_of_le hle, hstay⟩
      · refine ⟨k + 1, Nat.le_of_not_lt hstay, ?_⟩
        rw [pulse]
        omega

/-- **The schedule of the register.** Without a load an enabled laser follows the pattern it has. -/
theorem follows_offset (hquiet : ∀ t ≥ T, (run input t).setLaserPresdo = false)
    (henable : ∀ t ≥ T, (input t).laserEnable = true) : Follows input (run input T).offset T := by
  classical
  have hsome := exists_fires hquiet henable
  obtain ⟨hT, hfire⟩ := Nat.find_spec hsome
  have hfirst : ∀ t, T ≤ t → t < Nat.find hsome → ¬Fires input t :=
    fun t ht hlt hfires => Nat.find_min hsome hlt ⟨ht, hfires⟩
  generalize Nat.find hsome = a at hT hfire hfirst
  obtain ⟨m, hm⟩ := offset_turned hquiet hT
  generalize ho : (run input a).offset = o at hm
  have hpulse : ∀ k, T ≤ pulse a o k ∧ Fires input (pulse a o k) ∧
      (run input (pulse a o k)).offset = rotated^[k] o := by
    intro k
    induction k with
    | zero => exact ⟨hT, hfire, ho⟩
    | succ k ih =>
        obtain ⟨hle, hfires, hoffset⟩ := ih
        have hnext := next_scheduled hquiet henable hle hfires hoffset
        exact ⟨hle.trans (Nat.le_add_right _ _), hnext.1, hnext.2.1⟩
  refine ⟨pulse a o, m, hT, fun t ht => ⟨fun hfires => ?_, ?_⟩, fun k => ?_⟩
  · have hat : a ≤ t := Nat.le_of_not_lt fun hlt => hfirst t ht hlt hfires
    obtain ⟨k, hle, hlt⟩ := exists_pulse_le a o hat
    refine ⟨k, hle.antisymm (Nat.le_of_not_lt fun hbetween => ?_)⟩
    obtain ⟨hT', hfires', hoffset⟩ := hpulse k
    exact (next_scheduled hquiet henable hT' hfires' hoffset).2.2 t hbetween hlt hfires
  · rintro ⟨k, rfl⟩
    exact (hpulse k).2.1
  · rw [pulse, hm, scheduled_iterate]

/-- What the laser follows is the pattern in the register, up to the place in the schedule. -/
theorem alike_of_follows (hquiet : ∀ t ≥ T, (run input t).setLaserPresdo = false)
    (henable : ∀ t ≥ T, (input t).laserEnable = true) {p : BitVec 240} (hfollows : Follows input p T) :
    Alike (run input T).offset p := by
  obtain ⟨f, c, hT, hfires, hdist⟩ := hfollows
  have hmono : StrictMono f := strictMono_nat_of_lt_succ fun k => by
    rw [hdist]
    omega
  have hle : ∀ k, T ≤ f k := fun k => hT.trans (hmono.monotone (Nat.zero_le k))
  have hfire : ∀ k, Fires input (f k) := fun k => (hfires _ (hle k)).2 ⟨k, rfl⟩
  obtain ⟨m, hm⟩ := offset_turned hquiet hT
  have hoffset : ∀ k, (run input (f k)).offset = rotated^[k + m] (run input T).offset ∧
      scheduled p (c + k) = scheduled (run input T).offset (k + m) := by
    intro k
    have hnext : ∀ {k}, (run input (f k)).offset = rotated^[k + m] (run input T).offset →
        f (k + 1) = f k + (123 + scheduled (run input T).offset (k + m)) ∧
          (run input (f (k + 1))).offset = rotated^[k + m + 1] (run input T).offset := by
      intro k hk
      obtain ⟨hfireNext, hoffsetNext, hnone⟩ := next_scheduled hquiet henable (hle k) (hfire k) hk
      obtain ⟨k', hk'⟩ := (hfires _ ((hle k).trans (Nat.le_add_right _ _))).1 hfireNext
      have hbehind : k < k' := hmono.lt_iff_lt.1 (by rw [hk']; omega)
      have hno := hnone (f (k + 1)) (hmono (Nat.lt_succ_self k))
      have hbound : f (k + 1) ≤ f k' := hmono.monotone hbehind
      have heq : f (k + 1) = f k + (123 + scheduled (run input T).offset (k + m)) := by
        by_contra hne
        exact hno (by omega) (hfire (k + 1))
      exact ⟨heq, by rw [heq]; exact hoffsetNext⟩
    have hkept : (run input (f k)).offset = rotated^[k + m] (run input T).offset := by
      induction k with
      | zero => rw [Nat.zero_add, hm]
      | succ k ih => rw [(hnext ih).2, Nat.add_right_comm]
    refine ⟨hkept, ?_⟩
    have hsame := (hnext hkept).1
    rw [hdist k] at hsame
    omega
  refine alike_of_shifted (m := m) (c := c) fun k => ?_
  rw [Nat.add_comm m k, (hoffset k).2]

end Schedule

/-! ### What makes the machine load -/

/-- Bit 31 of `laser_presdo`, as the machine has it at clock `t`: the one of the clock before. -/
def seen (input : ℕ → Input) : ℕ → Bool
  | 0 => false
  | t + 1 => (input t).laserPresdo.getLsbD 31

/-- Bit 31 changes when `p` is written at clock `t₀`, or it has changed one clock before. -/
def Noticed (input : ℕ → Input) (p : BitVec 240) (t₀ : ℕ) : Prop :=
  seen input t₀ ≠ p.getLsbD 31 ∨ seen input (t₀ - 1) ≠ seen input t₀

instance (input : ℕ → Input) (p : BitVec 240) (t₀ : ℕ) : Decidable (Noticed input p t₀) :=
  inferInstanceAs (Decidable (_ ∨ _))

theorem sampled_eq_iff (p q : BitVec 240) :
    sampled p = sampled q ↔ p.getLsbD 31 = q.getLsbD 31 := by
  constructor
  · intro h
    have hbit := congrArg (fun b : BitVec 32 => b.getLsbD 0) h
    simpa [sampled] using hbit
  · intro h
    apply BitVec.eq_of_getLsbD_eq
    intro i hi
    by_cases hzero : i = 0
    · subst hzero
      simpa [sampled] using h
    · have hout : ¬i < 1 := by omega
      simp [sampled, hout]

section Adoption

variable {input : ℕ → Input} {p : BitVec 240} {t₀ T : ℕ}

theorem setLaserPresdo_succ (input : ℕ → Input) (t : ℕ) :
    (run input (t + 1)).setLaserPresdo = true ↔
      seen input t ≠ (input t).laserPresdo.getLsbD 31 := by
  rw [State.setLaserPresdo, bne_iff_ne, ne_eq, ne_eq]
  refine not_congr ?_
  cases t with
  | zero =>
      have hzero : (0 : BitVec 32) = sampled 0 := rfl
      change (0 : BitVec 32) = sampled _ ↔ _
      rw [hzero, sampled_eq_iff]
      rfl
  | succ t => exact sampled_eq_iff _ _

theorem setLaserPresdo_iff (input : ℕ → Input) (t : ℕ) :
    (run input t).setLaserPresdo = true ↔ seen input (t - 1) ≠ seen input t := by
  cases t with
  | zero => simp [run, Clocked.trace, State.setLaserPresdo, State.reset]
  | succ t => exact setLaserPresdo_succ input t

theorem quiet_of_held (hheld : ∀ t ≥ t₀, (input t).laserPresdo = p) :
    ∀ t ≥ t₀ + 2, (run input t).setLaserPresdo = false := by
  intro t ht
  obtain ⟨u, rfl⟩ : ∃ u, t = u + 2 := ⟨t - 2, by omega⟩
  rw [Bool.eq_false_iff, ne_eq, setLaserPresdo_iff, not_not]
  have hfirst : (input u).laserPresdo = p := hheld u (by omega)
  have hsecond : (input (u + 1)).laserPresdo = p := hheld (u + 1) (by omega)
  simp only [seen, hfirst, hsecond, show u + 2 - 1 = u + 1 by omega]

theorem quiet_of_unnoticed (hheld : ∀ t ≥ t₀, (input t).laserPresdo = p)
    (hunnoticed : ¬Noticed input p t₀) : ∀ t ≥ t₀, (run input t).setLaserPresdo = false := by
  simp only [Noticed, ne_eq, not_or, not_not] at hunnoticed
  obtain ⟨hnow, hbefore⟩ := hunnoticed
  intro t ht
  by_cases hlate : t₀ + 2 ≤ t
  · exact quiet_of_held hheld t hlate
  · rw [Bool.eq_false_iff, ne_eq]
    obtain rfl | rfl : t = t₀ ∨ t = t₀ + 1 := by omega
    · rw [setLaserPresdo_iff, not_not, hbefore]
    · rw [setLaserPresdo_succ, not_not, hnow, hheld t₀ le_rfl]

/-- A load takes the pattern as it is, and two clocks on it has turned once at the most. -/
theorem alike_of_noticed (hheld : ∀ t ≥ t₀, (input t).laserPresdo = p)
    (hnoticed : Noticed input p t₀) : Alike (run input (t₀ + 2)).offset p := by
  have hload : ∀ t ≥ t₀, (run input t).setLaserPresdo = true → (run input (t + 1)).offset = p := by
    intro t ht hset
    simp [run_succ, step, hset, hheld t ht]
  have hturn : (run input (t₀ + 1)).setLaserPresdo = false →
      ∃ m, (run input (t₀ + 2)).offset = rotated^[m] (run input (t₀ + 1)).offset := by
    intro hquiet
    refine offset_turned (fun t ht => ?_) (Nat.le_succ _)
    by_cases hfirst : t = t₀ + 1
    · rw [hfirst, hquiet]
    · exact quiet_of_held hheld t (by omega)
  cases hset : (run input (t₀ + 1)).setLaserPresdo with
  | true =>
      rw [hload (t₀ + 1) (Nat.le_succ _) hset]
      exact ⟨0, fun k => by rw [Nat.zero_add]⟩
  | false =>
      have hbefore : (run input t₀).setLaserPresdo = true := by
        rw [setLaserPresdo_iff]
        refine hnoticed.resolve_left fun hnow => ?_
        rw [Bool.eq_false_iff, ne_eq, setLaserPresdo_succ, not_not, hheld t₀ le_rfl] at hset
        exact hnow hset
      obtain ⟨m, hm⟩ := hturn hset
      rw [hm, hload t₀ le_rfl hbefore]
      exact ⟨m, scheduled_iterate p m⟩

theorem Follows.of_alike {o : BitVec 240} (hfollows : Follows input o T) (halike : Alike o p) :
    Follows input p T := by
  obtain ⟨f, c, hT, hfires, hdist⟩ := hfollows
  obtain ⟨d, hd⟩ := halike
  refine ⟨f, d + c, hT, hfires, fun k => ?_⟩
  rw [hdist, hd, Nat.add_assoc d]

theorem alike_of_unnoticed (hheld : ∀ t ≥ t₀, (input t).laserPresdo = p)
    (hunnoticed : ¬Noticed input p t₀) (hT : t₀ ≤ T) :
    Alike (run input T).offset (run input t₀).offset := by
  obtain ⟨m, hm⟩ := offset_turned (quiet_of_unnoticed hheld hunnoticed) hT
  exact hm ▸ alike_iterate _ m

/-- **A pattern is adopted** when bit 31 gives the write away, or when the register holds its schedule
already. -/
theorem follows_iff_noticed (hheld : ∀ t ≥ t₀, (input t).laserPresdo = p) (hT : t₀ + 2 ≤ T)
    (henable : ∀ t ≥ T, (input t).laserEnable = true) :
    Follows input p T ↔ Noticed input p t₀ ∨ Alike (run input t₀).offset p := by
  have hquiet : ∀ t ≥ T, (run input t).setLaserPresdo = false :=
    fun t ht => quiet_of_held hheld t (hT.trans ht)
  have hregister := follows_offset hquiet henable
  constructor
  · intro hfollows
    refine or_iff_not_imp_left.2 fun hunnoticed => ?_
    have hkept := alike_of_unnoticed hheld hunnoticed (T := T) (by omega)
    exact hkept.symm.trans (alike_of_follows hquiet henable hfollows)
  · intro hwritten
    by_cases hnoticed : Noticed input p t₀
    · obtain ⟨m, hm⟩ := offset_turned (quiet_of_held hheld) hT
      have hturned : Alike (run input T).offset (run input (t₀ + 2)).offset := hm ▸ alike_iterate _ m
      exact hregister.of_alike (hturned.trans (alike_of_noticed hheld hnoticed))
    · have hsame := hwritten.resolve_left hnoticed
      have hkept := alike_of_unnoticed hheld hnoticed (T := T) (by omega)
      exact hregister.of_alike (hkept.trans hsame)

end Adoption

/-- `laser_presdo` is 0 from the reset on, and `p` is written at clock 2. -/
def written (p : BitVec 240) (t : ℕ) : Input where
  laserEnable := true
  laserPresdo := if t < 2 then 0 else p

theorem written_held (p : BitVec 240) : ∀ t ≥ 2, (written p t).laserPresdo = p :=
  fun _ ht => if_neg (by omega)

theorem follows_written : Follows (written 0x80000000) 0x80000000 4 :=
  (follows_iff_noticed (written_held _) le_rfl (fun _ _ => rfl)).2 (.inl (by decide))

/-- The pattern 1 is not noticed: the laser keeps to the one of the reset, whose nibbles go up to 4. -/
theorem not_follows_written : ¬∃ T ≥ 4, Follows (written 1) 1 T := by
  rintro ⟨T, hT, hfollows⟩
  have hunnoticed : ¬Noticed (written 1) 1 2 := by decide
  have hquiet := quiet_of_unnoticed (written_held 1) hunnoticed
  have hsame := alike_of_follows (fun t ht => hquiet t (by omega)) (fun _ _ => rfl) hfollows
  have hkept := alike_of_unnoticed (written_held 1) hunnoticed (T := T) (by omega)
  obtain ⟨c, hc⟩ := hkept.symm.trans hsame
  have hsmall : ∀ j ≤ 59, nibble 1 j < 2 := by decide
  have hfour : scheduled (run (written 1) 2).offset 48 = 4 := by decide +kernel
  have hnone := hsmall (59 - (c + 48) % 60) (Nat.sub_le _ _)
  rw [hc] at hfour
  unfold scheduled at hfour
  omega

end SingleScan.CycleCtrl
