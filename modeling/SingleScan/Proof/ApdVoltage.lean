import SingleScan.Proof.Adt7301
import SingleScan.Proof.DacWords
import SingleScan.Proof.HighV

/-!
# From the sensor to the DAC

A cycle of 200000001 clocks reads one word from the sensor. What the registers behind the master hold is
a matter of clocks since the word was complete (`arrival`): three to the temperature, nine to the code,
ten to the request to the DAC.
-/

namespace SingleScan

open Clocked Serial

/-! ### The registers behind the master -/

namespace CalTem

/-- The temperature of a word of the sensor, in 32nds of a degree. -/
def sample (x : BitVec 16) : ℤ := (x.extractLsb' 0 14).toInt

/-- The full degrees without the sign. -/
def magnitude (x : BitVec 16) : BitVec 8 :=
  if x.getLsbD 13 then ((8192 - (x.extractLsb' 0 13).setWidth 32) >>> 5).setWidth 8
  else ((x.extractLsb' 0 13) >>> 5).setWidth 8

theorem getLsbD_sign (x : BitVec 16) : x.getLsbD 13 = decide (x.toNat / 8192 % 2 = 1) :=
  Nat.testBit_eq_decide_div_mod_eq

theorem toNat_low (x : BitVec 16) : (x.extractLsb' 0 13).toNat = x.toNat % 8192 := by
  rw [BitVec.extractLsb'_toNat, Nat.shiftRight_zero]

theorem sample_eq (x : BitVec 16) :
    sample x = if x.getLsbD 13 then (x.toNat % 8192 : ℤ) - 8192 else x.toNat % 8192 := by
  have hlow : (x.extractLsb' 0 14).toNat = x.toNat % 16384 := by
    rw [BitVec.extractLsb'_toNat, Nat.shiftRight_zero]
  rw [sample, BitVec.toInt_eq_toNat_cond, hlow, getLsbD_sign]
  simp only [decide_eq_true_eq]
  split <;> split <;> omega

theorem toNat_magnitude {x : BitVec 16} (h : sample x ≠ -8192) :
    (magnitude x).toNat = (sample x).natAbs / 32 := by
  have hlow := toNat_low x
  rw [sample_eq] at h ⊢
  unfold magnitude
  split_ifs at h ⊢ with hsign
  · have hdiff : (8192 - (x.extractLsb' 0 13).setWidth 32 : BitVec 32).toNat = 8192 - x.toNat % 8192 := by
      rw [BitVec.toNat_sub_of_le]
      · change 8192 - ((x.extractLsb' 0 13).setWidth 32).toNat = _
        rw [BitVec.toNat_setWidth, hlow]
        omega
      · rw [BitVec.le_def]
        simp [hlow]
        omega
    rw [BitVec.toNat_setWidth, BitVec.toNat_ushiftRight, hdiff, Nat.shiftRight_eq_div_pow]
    omega
  · rw [BitVec.toNat_setWidth, BitVec.toNat_ushiftRight, hlow, Nat.shiftRight_eq_div_pow]
    omega

/-- The degrees are rounded towards zero. -/
theorem degrees_magnitude {x : BitVec 16} (h : sample x ≠ -8192) :
    degrees (x.getLsbD 13) (magnitude x) = (sample x).tdiv 32 := by
  rw [degrees, toNat_magnitude h, sample_eq]
  split_ifs with hsign
  · have hneg : (x.toNat % 8192 : ℤ) - 8192 = -(8192 - x.toNat % 8192) := by omega
    rw [hneg, Int.neg_tdiv, Int.tdiv_eq_ediv_of_nonneg (by omega)]
    omega
  · rw [Int.tdiv_eq_ediv_of_nonneg (by omega)]
    omega

/-- `tem_count` for a word of the sensor. -/
def word (x : BitVec 16) : BitVec 16 := reading (x.getLsbD 13) (magnitude x)

variable {input : ℕ → Input} {c : State} {t : ℕ} {x : BitVec 16}

/-- The pulse comes three clocks behind the fall of `m_axis_tvalid`. -/
theorem temCountEn_eq (c : State) (input : ℕ → Input) (t : ℕ) :
    (trace step c input (t + 3)).temCountEn = ((input t).mAxisTvalid && !(input (t + 1)).mAxisTvalid) := by
  simp [trace, step, State.temCountEnFall, Bool.beq_eq_decide_eq]

/-- The temperature changes with the pulse only. -/
theorem temCount_step {s : State} {i : Input} (h : (step s i).temCountEn = false) :
    (step s i).temCount = s.temCount :=
  if_neg fun hfall => Bool.noConfusion (h.symm.trans hfall)

theorem temCount_eq (hvalid : (input t).mAxisTvalid = true) (hfall : (input (t + 1)).mAxisTvalid = false)
    (hdata : (input (t + 1)).mAxisTdata = x) (hdata' : (input (t + 2)).mAxisTdata = x) :
    (trace step c input (t + 3)).temCount = word x := by
  have hpulse : (trace step c input (t + 2)).temCountEnFall = true := by
    simp [trace, step, State.temCountEnFall, hvalid, hfall]
  have hmagnitude : (trace step c input (t + 2)).temCountM = magnitude x := by
    rw [trace, step, hdata, magnitude]
  have hsign : x.extractLsb' 13 1 = BitVec.ofBool (x.getLsbD 13) := by
    apply BitVec.eq_of_getLsbD_eq
    intro i hi
    obtain rfl : i = 0 := by omega
    simp
  rw [trace, step, if_pos hpulse, hdata', hmagnitude, hsign, word, reading]

end CalTem

namespace HighV

variable {input : ℕ → Input} {t : ℕ}

/-- `set_en` comes six clocks behind a pulse of `m_axis_tvalid`. -/
theorem setEn_eq (input : ℕ → Input) (t : ℕ) : (run input (t + 6)).setEn =
    ((input t).mAxisTvalid && !(input (t + 1)).mAxisTvalid &&
      !((input (t + 1)).mAxisTvalid && !(input (t + 2)).mAxisTvalid)) := by
  simp [run, trace, step, State.setEnFall, State.mAxisTvalidFall, Bool.beq_eq_decide_eq]

/-- The temperature is taken at a pulse and stays for some clocks. -/
theorem held_of_pulse {c : Settings} (hbefore : (input t).mAxisTvalid = false)
    (hpulse : (input (t + 1)).mAxisTvalid = true) (hafter : (input (t + 2)).mAxisTvalid = false)
    (hafter' : (input (t + 3)).mAxisTvalid = false)
    (hsettings : ∀ u, t + 3 ≤ u → u < t + 7 → (input u).settings = c) :
    Held input c (input (t + 2)).temCount (t + 3) where
  settings u hle hlt := hsettings u hle (by omega)
  temperature u hle hlt := by
    have hrise : (run input (t + 2)).mAxisTvalidRise = true := by
      simp [run_succ, step, State.mAxisTvalidRise, hbefore, hpulse]
    have hflat : (run input (t + 3)).mAxisTvalidRise = false := by
      simp [run_succ, step, State.mAxisTvalidRise, hpulse]
    have hflat' : (run input (t + 4)).mAxisTvalidRise = false := by
      simp [run_succ, step, State.mAxisTvalidRise, hafter, hafter']
    have htaken : (run input (t + 3)).temCountM = (input (t + 2)).temCount := by
      rw [run_succ, step, if_pos hrise]
    have hkept : (run input (t + 4)).temCountM = (input (t + 2)).temCount := by
      rw [run_succ, step, if_neg (hflat ▸ Bool.false_ne_true), htaken]
    obtain rfl | rfl | rfl : u = t + 3 ∨ u = t + 4 ∨ u = t + 5 := by omega
    · exact htaken
    · exact hkept
    · rw [run_succ, step, if_neg (hflat' ▸ Bool.false_ne_true), hkept]

end HighV

namespace ApdVoltage

open Adt7301Top (Reading)

variable (sampling : Sampling) (s : State) (preset : BitVec 16) (input : ℕ → Input)

/-- The state in clock `t` behind a reset. -/
def run (t : ℕ) : State := trace (step sampling) (s.reset preset) input t

theorem run_succ (t : ℕ) : run sampling s preset input (t + 1) =
    step sampling (run sampling s preset input t) (input t) := rfl

/-! ### The cycles -/

/-- The clocks of a cycle. -/
def period : ℕ := 200000001

/-- The divider of the master starts at 0 in the first cycle and at 1 in every other one. -/
def first (k : ℕ) : ℕ := if k = 0 then 0 else 1

/-- The word of cycle `k` is complete. -/
def arrival (k : ℕ) : ℕ := period * k + 100002001 - first k

/-- What the sensor holds when the select line falls in cycle `k`. -/
def taken (k : ℕ) : BitVec 16 := (input (period * k + 99999902)).temperature

theorem first_le (k : ℕ) : first k ≤ 1 := by
  unfold first
  split <;> decide

theorem reading_next {k n : ℕ} (hn : n < 200000000)
    (h : Reading (first k) (taken input k) n (run sampling s preset input (period * k + n)).reader
      (run sampling s preset input (period * k + n)).sensor) :
    Reading (first k) (taken input k) (n + 1) (run sampling s preset input (period * k + (n + 1))).reader
      (run sampling s preset input (period * k + (n + 1))).sensor := by
  exact h.next (i := (input (period * k + n)).port _)
    (first_le k) hn rfl fun heq => by rw [heq, taken]

/-- **Where the master and the sensor are in every clock.** -/
theorem reading_run (k : ℕ) {n : ℕ} (hn : n ≤ 200000000) :
    Reading (first k) (taken input k) n (run sampling s preset input (period * k + n)).reader
      (run sampling s preset input (period * k + n)).sensor := by
  induction k generalizing n with
  | zero =>
      induction n with
      | zero => exact ⟨rfl, rfl, .before (by decide) ⟨rfl, rfl, rfl, rfl⟩⟩
      | succ n ih => exact reading_next sampling s preset input (by omega) (ih (by omega))
  | succ k ihk =>
      induction n with
      | zero =>
          have hlast := ihk (n := 200000000) le_rfl
          have hclock : period * (k + 1) + 0 = period * k + 200000000 + 1 := by
            unfold period
            omega
          rw [hclock, run_succ]
          generalize period * k + 200000000 = u at hlast ⊢
          exact hlast.wrap (i := (input u).port (run sampling s preset input u).sensor) (first_le k) rfl (taken input (k + 1))
      | succ n ih => exact reading_next sampling s preset input (by omega) (ih (by omega))

/-- `m_axi_tvalid` in clock `t`. -/
def valid (t : ℕ) : Bool := (run sampling s preset input t).reader.core.mAxiTvalid

theorem valid_iff (t : ℕ) : valid sampling s preset input t = true ↔ ∃ k, t = arrival k := by
  have hcycle (k n : ℕ) (hn : n ≤ 200000000) :
      valid sampling s preset input (period * k + n) = decide (first k + n = 100002001) :=
    (reading_run sampling s preset input k hn).mAxiTvalid (first_le k)
  constructor
  · intro hvalid
    have hn : t % period ≤ 200000000 := Nat.le_of_lt_succ (Nat.mod_lt t (by decide))
    have hwhen := hcycle (t / period) (t % period) hn
    rw [Nat.div_add_mod, hvalid] at hwhen
    have hsum := of_decide_eq_true hwhen.symm
    refine ⟨t / period, ?_⟩
    have ht := Nat.div_add_mod t period
    unfold arrival
    omega
  · rintro ⟨k, rfl⟩
    have hfirst := first_le k
    have hclock : arrival k = period * k + (100002001 - first k) := by
      unfold arrival
      omega
    rw [hclock, hcycle k _ (by omega)]
    exact decide_eq_true (by omega)

theorem arrival_add_lt (k : ℕ) : arrival k + 200000000 ≤ arrival (k + 1) := by
  have hfirst := first_le k
  have hfirst' : first (k + 1) = 1 := rfl
  unfold arrival period
  omega

theorem arrival_strictMono : StrictMono arrival :=
  strictMono_nat_of_lt_succ fun k => by
    have := arrival_add_lt k
    omega

theorem le_arrival (k : ℕ) : 100002000 ≤ arrival k := by
  have hfirst := first_le k
  unfold arrival
  omega

/-- The clocks between two words. -/
theorem not_valid {k t : ℕ} (hafter : arrival k < t) (hbefore : t < arrival (k + 1)) :
    valid sampling s preset input t = false := by
  rw [Bool.eq_false_iff, ne_eq, valid_iff]
  rintro ⟨j, rfl⟩
  rw [arrival_strictMono.lt_iff_lt] at hafter hbefore
  omega

theorem not_valid_before {k t : ℕ} (hnear : arrival k ≤ t + 100000000) (ht : t < arrival k) :
    valid sampling s preset input t = false := by
  rw [Bool.eq_false_iff, ne_eq, valid_iff]
  rintro ⟨j, rfl⟩
  have hmono := arrival_strictMono.monotone (Nat.succ_le_of_lt (arrival_strictMono.lt_iff_lt.1 ht))
  have hnext := arrival_add_lt j
  rw [Nat.succ_eq_add_one] at hmono
  omega

theorem valid_arrival (k : ℕ) : valid sampling s preset input (arrival k) = true :=
  (valid_iff sampling s preset input _).2 ⟨k, rfl⟩

theorem mAxiTdata_arrival (k : ℕ) {j : ℕ} (hj : j ≤ 2) :
    (run sampling s preset input (arrival k + j)).reader.core.mAxiTdata = taken input k := by
  have hfirst := first_le k
  have hclock : arrival k + j = period * k + (100002001 - first k + j) := by
    unfold arrival
    omega
  rw [hclock]
  exact (reading_run sampling s preset input k (by omega)).mAxiTdata hfirst (by omega)

/-! ### The temperature -/

theorem calTem_run (t : ℕ) : (run sampling s preset input t).reader.calTem =
    trace CalTem.step CalTem.State.reset
      (fun u => ⟨(run sampling s preset input u).reader.core.mAxiTdata, valid sampling s preset input u⟩) t :=
  trace_component (fun s : State => s.reader.calTem)
    (fun s _ => (⟨s.reader.core.mAxiTdata, s.reader.core.mAxiTvalid⟩ : CalTem.Input)) (fun _ _ => rfl) t

theorem temCountEn_run (t : ℕ) : (run sampling s preset input (t + 3)).reader.calTem.temCountEn =
    valid sampling s preset input t := by
  rw [calTem_run, CalTem.temCountEn_eq]
  cases hvalid : valid sampling s preset input t with
  | false => rfl
  | true =>
      obtain ⟨k, rfl⟩ := (valid_iff sampling s preset input t).1 hvalid
      have hnext := arrival_add_lt k
      rw [not_valid sampling s preset input (k := k) (by omega) (by omega)]
      rfl

/-- The temperature behind a word. -/
theorem temCount_of_valid {t : ℕ} {x : BitVec 16} (hvalid : valid sampling s preset input t = true)
    (hfall : valid sampling s preset input (t + 1) = false)
    (hdata : (run sampling s preset input (t + 1)).reader.core.mAxiTdata = x)
    (hdata' : (run sampling s preset input (t + 2)).reader.core.mAxiTdata = x) :
    (run sampling s preset input (t + 3)).reader.calTem.temCount = CalTem.word x := by
  rw [calTem_run]
  exact CalTem.temCount_eq hvalid hfall hdata hdata'

theorem temCount_next {t : ℕ} (h : valid sampling s preset input t = false) :
    (run sampling s preset input (t + 3)).reader.calTem.temCount =
      (run sampling s preset input (t + 2)).reader.calTem.temCount :=
  CalTem.temCount_step ((temCountEn_run sampling s preset input t).trans h)

/-- **The temperature of a cycle.** It stands from three clocks behind its word until three clocks
behind the next one. -/
theorem temCount_run (k : ℕ) {t : ℕ} (hafter : arrival k ≤ t) (hbefore : t < arrival (k + 1)) :
    (run sampling s preset input (t + 3)).reader.calTem.temCount = CalTem.word (taken input k) := by
  induction t, hafter using Nat.le_induction with
  | base =>
      have hnext := arrival_add_lt k
      exact temCount_of_valid sampling s preset input (valid_arrival sampling s preset input k)
        (not_valid sampling s preset input (k := k) (by omega) (by omega))
        (mAxiTdata_arrival sampling s preset input k (by decide))
        (mAxiTdata_arrival sampling s preset input k le_rfl)
  | succ t hle ih =>
      exact (temCount_next sampling s preset input
        (not_valid sampling s preset input (Nat.lt_succ_of_le hle) hbefore)).trans
        (ih (Nat.lt_of_succ_lt hbefore))

/-- **The temperature that is read.** In every cycle the word is what the sensor held when the select line
fell. In full degrees, rounded towards zero, it stands until the word of the next cycle. -/
theorem temperature_read (k : ℕ) {t : ℕ} (hafter : arrival k + 3 ≤ t) (hbefore : t < arrival (k + 1) + 3) :
    valid sampling s preset input (arrival k) = true ∧
      (run sampling s preset input (arrival k)).reader.core.mAxiTdata = taken input k ∧
      ∃ sign magnitude,
        (run sampling s preset input t).reader.calTem.temCount = reading sign magnitude ∧
        (CalTem.sample (taken input k) ≠ -8192 →
          degrees sign magnitude = (CalTem.sample (taken input k)).tdiv 32) := by
  refine ⟨valid_arrival sampling s preset input k,
    mAxiTdata_arrival sampling s preset input k (Nat.zero_le 2), ?_⟩
  obtain ⟨u, rfl⟩ : ∃ u, t = u + 3 := ⟨t - 3, by omega⟩
  exact ⟨_, _, temCount_run sampling s preset input k (by omega) (by omega), CalTem.degrees_magnitude⟩

/-- Registers at zero, and a sensor that has not been selected. -/
def dark : State where
  reader := ⟨false, false, 0, 0, 0, 0, false, .reset, .reset, .reset⟩
  sensor := ⟨[]⟩
  driver := .reset Ad5328Top.dark

/-- 25.5 degrees. -/
def warm (_ : ℕ) : Input := ⟨0x0330, false, 0x01f4, 30, 30, 25⟩

theorem temperature_read_warm :
    (run Ad5328Dac.early dark 0x01f4 warm 100002001).reader.core.mAxiTdata = 0x0330 ∧
      ∃ sign magnitude,
        (run Ad5328Dac.early dark 0x01f4 warm 100002004).reader.calTem.temCount = reading sign magnitude ∧
          degrees sign magnitude = 25 := by
  obtain ⟨-, hdata, sign, magnitude, hcount, hdegrees⟩ :=
    temperature_read Ad5328Dac.early dark 0x01f4 warm 0 (t := 100002004) (by decide) (by decide)
  exact ⟨hdata, sign, magnitude, hcount, hdegrees (by decide)⟩

/-! ### The code -/

/-- The settings of `high_v` in clock `t`. -/
def settings (t : ℕ) : HighV.Settings :=
  (run sampling s preset input t).reader.settings ((input t).port (run sampling s preset input t).sensor)

/-- What `high_v` sees. -/
def temperatures (t : ℕ) : HighV.Input :=
  ⟨(run sampling s preset input t).reader.calTem.temCountEn,
    (run sampling s preset input t).reader.calTem.temCount, settings sampling s preset input t⟩

theorem highV_run (t : ℕ) : (run sampling s preset input t).reader.highV =
    HighV.run (temperatures sampling s preset input) t :=
  trace_component (fun s : State => s.reader.highV)
    (fun s (i : Input) => (⟨s.reader.calTem.temCountEn, s.reader.calTem.temCount,
      s.reader.settings (i.port s.sensor)⟩ : HighV.Input)) (fun _ _ => rfl) t

theorem setEn_highV (t : ℕ) : (run sampling s preset input (t + 9)).reader.highV.setEn =
    valid sampling s preset input t := by
  rw [highV_run, HighV.setEn_eq (t := t + 3)]
  change ((run sampling s preset input (t + 3)).reader.calTem.temCountEn &&
    !(run sampling s preset input (t + 1 + 3)).reader.calTem.temCountEn &&
    !((run sampling s preset input (t + 1 + 3)).reader.calTem.temCountEn &&
      !(run sampling s preset input (t + 2 + 3)).reader.calTem.temCountEn)) = _
  rw [temCountEn_run, temCountEn_run, temCountEn_run]
  cases hvalid : valid sampling s preset input t with
  | false => rfl
  | true =>
      obtain ⟨k, rfl⟩ := (valid_iff sampling s preset input t).1 hvalid
      have hnext := arrival_add_lt k
      rw [not_valid sampling s preset input (k := k) (t := arrival k + 1) (by omega) (by omega)]
      rfl

/-- The code behind a word. -/
theorem daCount_of_valid {t : ℕ} {x : BitVec 16} {c : HighV.Settings}
    (hbefore : valid sampling s preset input t = false)
    (hvalid : valid sampling s preset input (t + 1) = true)
    (hafter : valid sampling s preset input (t + 2) = false)
    (hafter' : valid sampling s preset input (t + 3) = false)
    (hcount : (run sampling s preset input (t + 2 + 3)).reader.calTem.temCount = CalTem.word x)
    (hsettings : ∀ u, t + 6 ≤ u → u < t + 10 → settings sampling s preset input u = c) :
    (run sampling s preset input (t + 10)).reader.highV.daCount = c.code (CalTem.word x) := by
  rw [← temCountEn_run] at hbefore hvalid hafter hafter'
  have hheld : HighV.Held (temperatures sampling s preset input) c
      (run sampling s preset input (t + 2 + 3)).reader.calTem.temCount (t + 6) :=
    HighV.held_of_pulse (t := t + 3) hbefore hvalid hafter hafter' hsettings
  rw [highV_run, hheld.daCount_eq]
  exact congrArg c.code hcount

/-- The code of a cycle, nine clocks behind its word. -/
theorem daCount_highV (k : ℕ) {c : HighV.Settings}
    (hsettings : ∀ u, arrival k + 5 ≤ u → u < arrival k + 9 → settings sampling s preset input u = c) :
    (run sampling s preset input (arrival k + 9)).reader.highV.daCount = c.code (CalTem.word (taken input k)) := by
  have hnext := arrival_add_lt k
  have hcount := temCount_run sampling s preset input k (t := arrival k + 1) (by omega) (by omega)
  have hafter := not_valid sampling s preset input (k := k) (t := arrival k + 1) (by omega) (by omega)
  have hafter' := not_valid sampling s preset input (k := k) (t := arrival k + 2) (by omega) (by omega)
  have hvalid := valid_arrival sampling s preset input k
  have hle := le_arrival k
  have hbefore := not_valid_before sampling s preset input (k := k) (t := arrival k - 1) (by omega) (by omega)
  obtain ⟨t, ht⟩ : ∃ t, arrival k = t + 1 := ⟨arrival k - 1, by omega⟩
  rw [ht] at hcount hafter hafter' hvalid hbefore hsettings ⊢
  exact daCount_of_valid sampling s preset input hbefore hvalid hafter hafter' hcount hsettings

/-! ### The request to the DAC -/

/-- The clock in which a word is asked for. -/
def request (k : ℕ) : ℕ := period * k + 100000000

theorem arrival_add_first (k : ℕ) : arrival k + first k = request k + 2001 := by
  have hfirst := first_le k
  unfold arrival request
  omega

/-- Nobody touches the settings from clock `a` up to clock `b`. -/
structure Calm (input : ℕ → Input) (a b : ℕ) : Prop where
  readFlag : ∀ t, a ≤ t → t < b → (input t).readFlag = false
  feedback : ∀ t, a ≤ t → t < b → (input t).feedbackTem1 = (input a).feedbackTem1 ∧
    (input t).feedbackTem2 = (input a).feedbackTem2 ∧ (input t).apdTemPoint = (input a).apdTemPoint

variable {input} {a b : ℕ}

theorem initialCount_step {t : ℕ} (h : (input t).readFlag = false) :
    (run sampling s preset input (t + 1)).reader.initialCount =
      (run sampling s preset input t).reader.initialCount :=
  if_neg fun hset => Bool.noConfusion (h.symm.trans hset.2.1)

theorem Calm.initialCount (h : Calm input a b) {t : ℕ} (hle : a ≤ t) (hlt : t < b) :
    (run sampling s preset input t).reader.initialCount =
      (run sampling s preset input a).reader.initialCount := by
  induction t, hle using Nat.le_induction with
  | base => rfl
  | succ t hle ih =>
      rw [initialCount_step sampling s preset (h.readFlag t hle (by omega)), ih (by omega)]

theorem Calm.settings (h : Calm input a b) {t : ℕ} (hle : a ≤ t) (hlt : t < b) :
    settings sampling s preset input t = settings sampling s preset input a := by
  obtain ⟨htemK, htemKH, hpoint⟩ := h.feedback t hle hlt
  simp only [ApdVoltage.settings, Adt7301Top.State.settings, Input.port,
    h.initialCount sampling s preset hle hlt, htemK, htemKH, hpoint]

/-- The request of a new setting rests while nobody sets one. -/
theorem setEnUp_run {t : ℕ} (h : (input t).readFlag = false) :
    (run sampling s preset input (t + 1)).reader.setEnUp = false := by
  change ((input t).readFlag && _) = false
  rw [h, Bool.false_and]

theorem setEn_run {t : ℕ} (h : (input (t + 8)).readFlag = false) :
    (run sampling s preset input (t + 10)).reader.setEn = valid sampling s preset input t := by
  change ((run sampling s preset input (t + 9)).reader.setEnUp ||
    (run sampling s preset input (t + 9)).reader.highV.setEn) = _
  rw [setEnUp_run sampling s preset h, setEn_highV, Bool.false_or]

theorem daCount_run {t : ℕ} (h : (input (t + 8)).readFlag = false) :
    (run sampling s preset input (t + 10)).reader.daCount =
      if valid sampling s preset input t then (run sampling s preset input (t + 9)).reader.highV.daCount
      else (run sampling s preset input (t + 9)).reader.daCount := by
  rw [← setEn_highV]
  exact if_neg (setEnUp_run sampling s preset h ▸ Bool.false_ne_true)

variable (input) in
/-- What the driver of the DAC sees. -/
def requests (t : ℕ) : Ad5328Top.Input :=
  ⟨(run sampling s preset input t).reader.setEn, (run sampling s preset input t).reader.daCount⟩

theorem driver_run (t : ℕ) : (run sampling s preset input t).driver =
    Ad5328Dac.run sampling s.driver.top (requests sampling s preset input) t :=
  trace_component (fun s : State => s.driver)
    (fun s _ => (⟨s.reader.setEn, s.reader.daCount⟩ : Ad5328Top.Input)) (fun _ _ => rfl) t

/-- A code that comes with a word and stays. -/
theorem dac_of_valid {stop t : ℕ} {v : BitVec 16} (hvalid : valid sampling s preset input a = true)
    (hquiet : ∀ u, b ≤ u → u < stop → (input u).readFlag = false)
    (hbefore : ∀ u, b ≤ u + 8 → u < a → valid sampling s preset input u = false)
    (hafter : ∀ u, a < u → u + 10 < stop → valid sampling s preset input u = false)
    (hcode : ∀ u, a + 10 ≤ u → u < stop → (run sampling s preset input u).reader.daCount = v)
    (hlong : b + 1604 ≤ a) (hlate : a + 814 ≤ t) (ht : t ≤ stop) :
    (run sampling s preset input t).driver.dac.words.getLast? = some v := by
  have hset (u : ℕ) (hlow : b ≤ u + 8) (hhigh : u + 10 < stop) :
      (run sampling s preset input (u + 10)).reader.setEn = valid sampling s preset input u :=
    setEn_run sampling s preset (hquiet _ hlow (by omega))
  have hwait : ∀ u, a + 10 - 1604 ≤ u → u < a + 10 - 1604 + 1604 →
      (run sampling s preset input u).reader.setEn = false := by
    intro u hle hlt
    obtain ⟨w, rfl⟩ : ∃ w, u = w + 10 := ⟨u - 10, by omega⟩
    exact (hset w (by omega) (by omega)).trans (hbefore w (by omega) (by omega))
  have hlater : ∀ u, a + 10 < u → u < stop → (run sampling s preset input u).reader.setEn = false := by
    intro u hlt hlt'
    obtain ⟨w, rfl⟩ : ∃ w, u = w + 10 := ⟨u - 10, by omega⟩
    exact (hset w (by omega) hlt').trans (hafter w (by omega) hlt')
  have hnow : (run sampling s preset input (a + 10)).reader.setEn = true :=
    (hset a (by omega) (by omega)).trans hvalid
  have hwaits : (Ad5328Top.run s.driver.top (requests sampling s preset input)
      (a + 10 - 1604 + 1604)).drive.cs = .wait :=
    Ad5328Dac.waits_of_quiet s.driver.top le_rfl hwait
  rw [Nat.sub_add_cancel (by omega)] at hwaits
  rw [driver_run]
  exact Ad5328Dac.dac_accepted s.driver.top hwaits hnow hlater hcode sampling (by omega) ht

section Follows

variable {k stop : ℕ} (hcalm : Calm input (request k) stop) (hstop : stop ≤ arrival (k + 1) + 10)

include hcalm

/-- The code of the cycle is at the driver. -/
theorem code_arrival (hlong : arrival k + 11 ≤ stop) :
    (run sampling s preset input (arrival k + 10)).reader.daCount =
      (settings sampling s preset input (request k)).code (CalTem.word (taken input k)) := by
  have hfirst := first_le k
  have hrequest := arrival_add_first k
  rw [daCount_run sampling s preset (hcalm.readFlag _ (by omega) (by omega)), if_pos (valid_arrival ..)]
  exact daCount_highV sampling s preset input k fun u hle hlt =>
    hcalm.settings sampling s preset (by omega) (by omega)

include hstop

/-- It stays there. -/
theorem code_held {t : ℕ} (hafter : arrival k + 10 ≤ t) (ht : t < stop) :
    (run sampling s preset input t).reader.daCount =
      (settings sampling s preset input (request k)).code (CalTem.word (taken input k)) := by
  have hfirst := first_le k
  have hrequest := arrival_add_first k
  induction t, hafter using Nat.le_induction with
  | base => exact code_arrival sampling s preset hcalm (by omega)
  | succ t hle ih =>
      obtain ⟨u, rfl⟩ : ∃ u, t = u + 9 := ⟨t - 9, by omega⟩
      have hquiet := not_valid sampling s preset input (k := k) (t := u) (by omega) (by omega)
      have hstep := daCount_run sampling s preset (t := u) (hcalm.readFlag _ (by omega) (by omega))
      rw [if_neg (hquiet ▸ Bool.false_ne_true)] at hstep
      exact hstep.trans (ih (by omega))

/-- **The DAC follows the temperature.** What the sensor held in a cycle is the voltage from 3000 clocks
behind the request on. -/
theorem dac_follows {t : ℕ} (hlate : request k + 3000 ≤ t) (ht : t ≤ stop) :
    (run sampling s preset input t).driver.dac.words.getLast? =
      some ((settings sampling s preset input (request k)).code (CalTem.word (taken input k))) := by
  have hfirst := first_le k
  have hrequest := arrival_add_first k
  refine dac_of_valid sampling s preset (valid_arrival sampling s preset input k) hcalm.readFlag
    (fun u hle hlt => ?_) (fun u hlt hlt' => ?_)
    (fun u hle hlt => code_held sampling s preset hcalm hstop hle hlt) (by omega) (by omega) ht
  · exact not_valid_before sampling s preset input (by omega) hlt
  · exact not_valid sampling s preset input hlt (by omega)

end Follows

theorem calm_warm (a b : ℕ) : Calm warm a b where
  readFlag _ _ _ := rfl
  feedback _ _ _ := ⟨rfl, rfl, rfl⟩

theorem settings_warm {t : ℕ} : settings Ad5328Dac.early dark 0x01f4 warm t = ⟨500, 30, 30, 25⟩ :=
  ((calm_warm 0 (t + 1)).settings Ad5328Dac.early dark 0x01f4 (Nat.zero_le t) (Nat.lt_succ_self t)).trans rfl

theorem dac_follows_warm :
    (run Ad5328Dac.early dark 0x01f4 warm (request 0 + 3000)).driver.dac.words.getLast? = some 0x07d0 := by
  have hlast := dac_follows Ad5328Dac.early dark 0x01f4 (calm_warm (request 0) (request 0 + 3000)) (k := 0)
    (by decide) le_rfl le_rfl
  rw [settings_warm] at hlast
  exact hlast.trans (by decide)

end ApdVoltage

end SingleScan
