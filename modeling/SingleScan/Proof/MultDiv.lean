import Mathlib.Order.Monotone.Basic
import SingleScan.Lib.Trace
import SingleScan.MultDiv

/-!
# Every echo of a list is replayed once

The counter starts three clocks behind `valid_m`. From there on `Playing` says where the list stands in
the shift register, and what has gone to the output is a function of the counter. The counter also runs
from reset on without a list, and then replays an empty one; that pulse may fall behind the first
`valid_m`.
-/

namespace SingleScan.MultDiv

open Clocked

/-! ### The packed list -/

theorem extractLsb'_shiftLeft {n w k : ℕ} (x : BitVec n) (hn : n = w * 5) (hk : k ≤ 4) :
    (x <<< (w * k)).extractLsb' (w * 4) w = x.extractLsb' (w * (4 - k)) w := by
  apply BitVec.eq_of_getLsbD_eq
  intro i hi
  have hle : w * k ≤ w * 4 := Nat.mul_le_mul_left w hk
  have hslot : w * 4 + i - w * k = w * (4 - k) + i := by
    rw [Nat.mul_sub]
    omega
  have hin : w * 4 + i < n := by omega
  have hhigh : ¬ w * 4 + i < w * k := by omega
  rw [BitVec.getLsbD_extractLsb', BitVec.getLsbD_extractLsb', BitVec.getLsbD_shiftLeft, hslot]
  simp [hi, hin, hhigh]

theorem extractLsb'_concat_zero {n w : ℕ} (x : BitVec n) (y : BitVec w) :
    (x ++ y).extractLsb' 0 w = y := by
  apply BitVec.eq_of_getLsbD_eq
  intro i hi
  rw [BitVec.getLsbD_extractLsb', BitVec.getLsbD_append, Nat.zero_add]
  simp [hi]

theorem extractLsb'_concat_succ {n w r j : ℕ} (x : BitVec n) (y : BitVec w) (hr : r = w * 4)
    (hj : j < 4) : (x.setWidth r ++ y).extractLsb' (w * (j + 1)) w = x.extractLsb' (w * j) w := by
  apply BitVec.eq_of_getLsbD_eq
  intro i hi
  have hnext : w * (j + 1) = w * j + w := Nat.mul_succ w j
  have hle : w * (j + 1) ≤ w * 4 := Nat.mul_le_mul_left w hj
  have hhigh : ¬ w * (j + 1) + i < w := by omega
  have hslot : w * (j + 1) + i - w = w * j + i := by omega
  have hin : w * j + i < r := by omega
  rw [BitVec.getLsbD_extractLsb', BitVec.getLsbD_extractLsb', BitVec.getLsbD_append,
    BitVec.getLsbD_setWidth, hslot]
  simp [hi, hhigh, hin]

theorem packDistance_concat (echoes : List (BitVec 16 × BitVec 8)) (echo : BitVec 16 × BitVec 8) :
    packDistance (echoes ++ [echo]) = (packDistance echoes).setWidth 64 ++ echo.1 := by
  rw [packDistance, List.foldl_append]
  rfl

theorem packPluse_concat (echoes : List (BitVec 16 × BitVec 8)) (echo : BitVec 16 × BitVec 8) :
    packPluse (echoes ++ [echo]) = (packPluse echoes).setWidth 32 ++ echo.2 := by
  rw [packPluse, List.foldl_append]
  rfl

/-- Slot `j` holds the echo that is `j` places before the last one. -/
theorem slot_packDistance (echoes : List (BitVec 16 × BitVec 8)) {j : ℕ} (hj : j ≤ 4) :
    (packDistance echoes).extractLsb' (16 * j) 16 = (echoes.reverse.map Prod.fst).getD j 0 := by
  induction echoes using List.reverseRecOn generalizing j with
  | nil =>
      simp [packDistance]
  | append_singleton echoes echo ih =>
      rw [packDistance_concat, List.reverse_append, List.reverse_singleton, List.singleton_append,
        List.map_cons]
      cases j with
      | zero => exact extractLsb'_concat_zero _ _
      | succ j =>
          rw [List.getD_cons_succ, ← ih (Nat.le_of_succ_le hj)]
          exact extractLsb'_concat_succ (packDistance echoes) echo.1 rfl (by omega)

theorem slot_packPluse (echoes : List (BitVec 16 × BitVec 8)) {j : ℕ} (hj : j ≤ 4) :
    (packPluse echoes).extractLsb' (8 * j) 8 = (echoes.reverse.map Prod.snd).getD j 0 := by
  induction echoes using List.reverseRecOn generalizing j with
  | nil =>
      simp [packPluse]
  | append_singleton echoes echo ih =>
      rw [packPluse_concat, List.reverse_append, List.reverse_singleton, List.singleton_append,
        List.map_cons]
      cases j with
      | zero => exact extractLsb'_concat_zero _ _
      | succ j =>
          rw [List.getD_cons_succ, ← ih (Nat.le_of_succ_le hj)]
          exact extractLsb'_concat_succ (packPluse echoes) echo.2 rfl (by omega)

/-! ### One list -/

/-- What goes to the output when the counter stands at `j`, for a packed list. -/
def played (d : BitVec 80) (p : BitVec 40) (j : ℕ) : Option (BitVec 18 × BitVec 12) :=
  if j ≤ 80 ∧ j % 20 = 0 then
    if d.extractLsb' (16 * (4 - j / 20)) 16 = 0 then if j = 80 then some (0xffff, 0) else none
    else
      some ((d.extractLsb' (16 * (4 - j / 20)) 16).setWidth 18,
        (p.extractLsb' (8 * (4 - j / 20)) 8).setWidth 12)
  else none

theorem played_of_mod_ne_zero {d : BitVec 80} {p : BitVec 40} {j : ℕ} (hj : j % 20 ≠ 0) :
    played d p j = none := if_neg fun h => hj h.2

theorem played_of_late {d : BitVec 80} {p : BitVec 40} {j : ℕ} (hj : 80 < j) :
    played d p j = none := if_neg fun h => absurd h.1 (Nat.not_le.2 hj)

/-- The counter stands at `j`. -/
structure Playing (d : BitVec 80) (p : BitVec 40) (j : ℕ) (s : State) : Prop where
  delay : s.multDelay.toNat = j
  validInt : s.validInt = false
  validR : s.validR = (decide (j = 0), false)
  distanceM : s.multDistanceM = d <<< (16 * min 4 ((j + 1) / 20))
  pluseM : s.multPluseM = p <<< (8 * min 4 ((j + 1) / 20))
  distanceReg : s.distanceReg = d.extractLsb' (16 * (4 - min 4 (j / 20))) 16
  pluse : s.pluse = p.extractLsb' (8 * (4 - min 4 (j / 20))) 8
  emitted : 1 ≤ j → (if s.valid1 then some (s.distance, s.timePluse) else none) = played d p (j - 1)
  out : 2 ≤ j → s.out = played d p (j - 2)

variable {d : BitVec 80} {p : BitVec 40} {j : ℕ} {s : State} {i : Input}

theorem multDelay_eq_iff (s : State) {n : ℕ} (hn : n < 256) :
    s.multDelay = BitVec.ofNat 8 n ↔ s.multDelay.toNat = n := by
  rw [← BitVec.toNat_inj, BitVec.toNat_ofNat, Nat.mod_eq_of_lt hn]

theorem shifts_iff (s : State) :
    s.shifts = true ↔ s.multDelay.toNat = 18 ∨ s.multDelay.toNat = 38 ∨ s.multDelay.toNat = 58 ∨
      s.multDelay.toNat = 78 := by
  have h18 : s.multDelay = 18 ↔ s.multDelay.toNat = 18 := multDelay_eq_iff s (by decide)
  have h38 : s.multDelay = 38 ↔ s.multDelay.toNat = 38 := multDelay_eq_iff s (by decide)
  have h58 : s.multDelay = 58 ↔ s.multDelay.toNat = 58 := multDelay_eq_iff s (by decide)
  have h78 : s.multDelay = 78 ↔ s.multDelay.toNat = 78 := multDelay_eq_iff s (by decide)
  simp only [State.shifts, Bool.or_eq_true, beq_iff_eq, or_assoc, h18, h38, h58, h78]

/-- The output is driven at five values of the counter. -/
theorem emits_eq (s : State) :
    s.emits =
      if s.multDelay.toNat = 80 ∧ s.distanceReg = 0 then some (0xffff, 0)
      else if s.distanceReg = 0 then none
      else if s.validFall = true ∨ s.multDelay.toNat = 20 ∨ s.multDelay.toNat = 40 ∨
          s.multDelay.toNat = 60 ∨ s.multDelay.toNat = 80 then
        some (s.distanceReg.setWidth 18, s.pluse.setWidth 12)
      else none := by
  have hpos : 0 < s.distanceReg.toNat ↔ ¬ s.distanceReg = 0 := by
    rw [Nat.pos_iff_ne_zero, Ne, ← BitVec.toNat_inj]
    rfl
  have h20 : s.multDelay = 20 ↔ s.multDelay.toNat = 20 := multDelay_eq_iff s (by decide)
  have h40 : s.multDelay = 40 ↔ s.multDelay.toNat = 40 := multDelay_eq_iff s (by decide)
  have h60 : s.multDelay = 60 ↔ s.multDelay.toNat = 60 := multDelay_eq_iff s (by decide)
  have h80 : s.multDelay = 80 ↔ s.multDelay.toNat = 80 := multDelay_eq_iff s (by decide)
  simp only [State.emits, Bool.or_eq_true, beq_iff_eq, or_assoc, hpos, h20, h40, h60, h80, ite_not]

theorem Playing.validFall_iff (h : Playing d p j s) : s.validFall = true ↔ j = 0 := by
  simp [State.validFall, h.validR]

theorem Playing.emits (h : Playing d p j s) : s.emits = played d p j := by
  have hfall := h.validFall_iff
  rw [emits_eq, h.delay, h.distanceReg, h.pluse, played]
  by_cases hstrobe : j ≤ 80 ∧ j % 20 = 0
  · have hslot : min 4 (j / 20) = j / 20 := by omega
    have hdriven : s.validFall = true ∨ j = 20 ∨ j = 40 ∨ j = 60 ∨ j = 80 := by
      rw [hfall]
      omega
    rw [if_pos hstrobe, hslot, if_pos hdriven]
    by_cases hempty : d.extractLsb' (16 * (4 - j / 20)) 16 = 0
    · rw [if_pos hempty, if_pos hempty]
      simp only [hempty, and_true]
    · rw [if_neg hempty, if_neg hempty, if_neg fun hlast => hempty hlast.2]
  · have hidle : ¬ (s.validFall = true ∨ j = 20 ∨ j = 40 ∨ j = 60 ∨ j = 80) := by
      rw [hfall]
      omega
    have hlast : ¬ (j = 80 ∧ d.extractLsb' (16 * (4 - min 4 (j / 20))) 16 = 0) := by
      omega
    rw [if_neg hstrobe, if_neg hlast, if_neg hidle, ite_self]

/-- What has been emitted is in the output registers one edge later. -/
theorem step_emitted (s : State) (i : Input) :
    (if (step s i).valid1 then some ((step s i).distance, (step s i).timePluse) else none) =
      s.emits := by
  cases h : s.emits <;> simp [step, h]

theorem step_out_of_emits_none (i : Input) (h : s.emits = none) :
    (step s i).out = if s.valid1 then some (s.distance, s.timePluse) else none := by
  simp only [State.out, step, h]
  rfl

theorem step_out_eq_none (i : Input) (h : s.valid1 = false) : (step s i).out = none := by
  simp [State.out, step, h]

/-- A shift by one slot more, or not. -/
theorem ite_shiftLeft {w size n : ℕ} (x : BitVec w) (shifts : Bool) :
    (if shifts = true then x <<< (size * n) <<< size else x <<< (size * n)) =
      x <<< (size * if shifts = true then n + 1 else n) := by
  cases shifts with
  | true => exact (BitVec.shiftLeft_add x (size * n) size).symm
  | false => rfl

theorem Playing.quiet (h : Playing d p j s) (hj : j < 255) (hquiet : i.validM = false) :
    Playing d p (j + 1) (step s i) := by
  have hrise : s.validRise = false := by
    simp [State.validRise, h.validR]
  have hshifts := shifts_iff s
  rw [h.delay] at hshifts
  have hslots : (if s.shifts = true then min 4 ((j + 1) / 20) + 1 else min 4 ((j + 1) / 20)) =
      min 4 ((j + 1 + 1) / 20) := by
    split_ifs with hshift <;> rw [hshifts] at hshift <;> omega
  constructor
  case delay =>
    simp only [step, hrise, Bool.false_eq_true, if_false]
    rw [BitVec.toNat_add, h.delay]
    exact Nat.mod_eq_of_lt (Nat.succ_lt_succ hj)
  case validInt => exact hquiet
  case validR =>
    simp only [step, h.validR, h.validInt]
    rfl
  case distanceM =>
    have hstep : (step s i).multDistanceM =
        if s.shifts then s.multDistanceM <<< 16 else s.multDistanceM := by
      simp only [step, h.validInt, Bool.false_eq_true, if_false]
    rw [hstep, h.distanceM, ite_shiftLeft, hslots]
  case pluseM =>
    have hstep : (step s i).multPluseM = if s.shifts then s.multPluseM <<< 8 else s.multPluseM := by
      simp only [step, h.validInt, Bool.false_eq_true, if_false]
    rw [hstep, h.pluseM, ite_shiftLeft, hslots]
  case distanceReg =>
    change s.multDistanceM.extractLsb' (16 * 4) 16 = _
    rw [h.distanceM]
    exact extractLsb'_shiftLeft d rfl (Nat.min_le_left 4 _)
  case pluse =>
    change s.multPluseM.extractLsb' (8 * 4) 8 = _
    rw [h.pluseM]
    exact extractLsb'_shiftLeft p rfl (Nat.min_le_left 4 _)
  case emitted =>
    intro _
    rw [step_emitted, h.emits]
    rfl
  case out =>
    intro hj
    have hbefore := h.emitted (by omega)
    rw [show j + 1 - 2 = j - 1 by omega, ← hbefore]
    cases hvalid : s.valid1 with
    | false => exact step_out_eq_none i hvalid
    | true =>
        -- the counter has moved on, so that the registers stand still
        have hnone : s.emits = none := by
          rw [h.emits]
          refine played_of_mod_ne_zero fun hmod => ?_
          rw [hvalid, if_pos rfl, played_of_mod_ne_zero (by omega)] at hbefore
          cases hbefore
        rw [step_out_of_emits_none i hnone, hvalid]

/-- The counter runs on as long as no other list comes. -/
theorem Playing.run {input : ℕ → Input} {c m : ℕ} (h : Playing d p 0 (trace step s input c))
    (hm : m ≤ 255) (hquiet : ∀ k < m, (input (c + k)).validM = false) :
    ∀ k ≤ m, Playing d p k (trace step s input (c + k)) := by
  intro k
  induction k with
  | zero => exact fun _ => h
  | succ k ih => exact fun hk => (ih (by omega)).quiet (by omega) (hquiet k hk)

theorem Playing.log {input : ℕ → Input} {c m : ℕ} (h : Playing d p 0 (trace step s input c))
    (hm : m + 1 ≤ 255) (hquiet : ∀ k < m + 1, (input (c + k)).validM = false) :
    logged step s input (fun s _ => s.out) (c + 2) m = (List.range m).filterMap (played d p) := by
  refine logged_eq_filterMap fun k hk => ?_
  have hout := (h.run hm hquiet (k + 2) (by omega)).out (by omega)
  rw [Nat.add_assoc, Nat.add_comm 2 k]
  exact hout

/-! ### Between two lists -/

theorem emits_eq_none (hfall : s.validFall = false)
    (hidle : (s.distanceReg = 0 ∧ s.multDelay.toNat ≠ 80) ∨ 82 ≤ s.multDelay.toNat) :
    s.emits = none := by
  rw [emits_eq, hfall]
  rcases hidle with ⟨hempty, hdelay⟩ | hlate
  · rw [if_neg fun h => hdelay h.1, if_pos hempty]
  · have hidle : ¬ (false = true ∨ s.multDelay.toNat = 20 ∨ s.multDelay.toNat = 40 ∨
        s.multDelay.toNat = 60 ∨ s.multDelay.toNat = 80) := by
      rintro (hfalse | hdelay)
      · cases hfalse
      · omega
    rw [if_neg fun h => absurd h.1 (by omega), if_neg hidle, ite_self]

/-- The machine waits for `valid_m`, whose list it will take in and hand on as it is. -/
structure Ready (s : State) : Prop where
  validInt : s.validInt = false
  validR : s.validR = (false, false)
  valid1 : s.valid1 = false
  silent : (s.distanceReg = 0 ∧ s.multDistanceM = 0 ∧
      ∀ k ≤ 2, (s.multDelay.toNat + k) % 256 ≠ 80) ∨
    (82 ≤ s.multDelay.toNat ∧ s.multDelay.toNat ≤ 247)
  unshifted : ∀ k ∈ [18, 38, 58, 78], (s.multDelay.toNat + 2) % 256 ≠ k

theorem Playing.ready (h : Playing d p j s) (hlo : 82 ≤ j) (hhi : j ≤ 247) : Ready s where
  validInt := h.validInt
  validR := by
    rw [h.validR, decide_eq_false (by omega)]
  valid1 := by
    have hlast := h.emitted (by omega)
    rw [played_of_late (by omega)] at hlast
    by_contra hvalid
    rw [if_pos (by simpa using hvalid)] at hlast
    cases hlast
  silent := by
    rw [h.delay]
    exact .inr ⟨hlo, hhi⟩
  unshifted := by
    rw [h.delay]
    simp only [List.forall_mem_cons, List.not_mem_nil, false_implies, implies_true, and_true]
    omega

/-- The registers while the list is taken in. -/
structure Loading (d : BitVec 80) (p : BitVec 40) (delay : ℕ) (s : State) : Prop where
  delay : s.multDelay.toNat = delay
  validInt : s.validInt = false
  validR : s.validR = (false, true)
  distanceM : s.multDistanceM = d
  pluseM : s.multPluseM = p

/-- The counter is cleared. A shift of the old count may move the list on at once. -/
theorem Loading.start {delay : ℕ} {d' : BitVec 80} {p' : BitVec 40} (h : Loading d p delay s)
    (hquiet : i.validM = false) (hd : (if s.shifts then d <<< 16 else d) = d')
    (hp : (if s.shifts then p <<< 8 else p) = p')
    (hdTop : d.extractLsb' 64 16 = d'.extractLsb' 64 16)
    (hpTop : p.extractLsb' 32 8 = p'.extractLsb' 32 8) : Playing d' p' 0 (step s i) := by
  constructor
  case delay =>
    simp only [step, State.validRise, h.validR]
    rfl
  case validInt => exact hquiet
  case validR =>
    simp only [step, h.validR, h.validInt]
    rfl
  case distanceM =>
    have hstep : (step s i).multDistanceM = if s.shifts then d <<< 16 else d := by
      simp only [step, h.validInt, h.distanceM, Bool.false_eq_true, if_false]
    rw [hstep, hd]
    exact (BitVec.shiftLeft_zero d').symm
  case pluseM =>
    have hstep : (step s i).multPluseM = if s.shifts then p <<< 8 else p := by
      simp only [step, h.validInt, h.pluseM, Bool.false_eq_true, if_false]
    rw [hstep, hp]
    exact (BitVec.shiftLeft_zero p').symm
  case distanceReg =>
    change s.multDistanceM.extractLsb' 64 16 = _
    rw [h.distanceM, hdTop]
    rfl
  case pluse =>
    change s.multPluseM.extractLsb' 32 8 = _
    rw [h.pluseM, hpTop]
    rfl
  all_goals omega

theorem Loading.start_unshifted {delay : ℕ} (h : Loading d p delay s) (hquiet : i.validM = false)
    (hunshifted : s.shifts = false) : Playing d p 0 (step s i) :=
  h.start hquiet (by simp [hunshifted]) (by simp [hunshifted]) rfl rfl

theorem step_multDelay (hlow : s.validR = (false, false)) :
    (step s i).multDelay.toNat = (s.multDelay.toNat + 1) % 256 := by
  simp only [step, State.validRise, hlow]
  exact BitVec.toNat_add _ _

theorem loading_of_waiting {i₀ i₁ : Input} (hint : s.validInt = false) (hR : s.validR = (false, false))
    (hvalid : i₀.validM = true) (hquiet : i₁.validM = false) :
    Loading i₁.multDistance i₁.multPluse ((s.multDelay.toNat + 2) % 256) (step (step s i₀) i₁) := by
  have hR' : (step s i₀).validR = (false, false) := by
    simp only [step, hR, hint]
  constructor
  case delay =>
    rw [step_multDelay hR', step_multDelay hR]
    omega
  case validInt => exact hquiet
  case validR => simp only [step, hR, hint, hvalid]
  case distanceM => simp only [step, hvalid, if_true]
  case pluseM => simp only [step, hvalid, if_true]

/-- **From one list to the next.** The four clocks behind `valid_m` are quiet. -/
theorem Ready.start {i₀ i₁ i₂ : Input} (h : Ready s) (hvalid : i₀.validM = true)
    (hquiet₁ : i₁.validM = false) (hquiet₂ : i₂.validM = false) (i₃ : Input) :
    Playing i₁.multDistance i₁.multPluse 0 (step (step (step s i₀) i₁) i₂) ∧
      (step s i₀).out = none ∧ (step (step s i₀) i₁).out = none ∧
      (step (step (step s i₀) i₁) i₂).out = none ∧
      (step (step (step (step s i₀) i₁) i₂) i₃).out = none := by
  have hload := loading_of_waiting h.validInt h.validR hvalid hquiet₁
  have hR : (step s i₀).validR = (false, false) := by
    simp only [step, h.validR, h.validInt]
  have hdelay₁ : (step s i₀).multDelay.toNat = (s.multDelay.toNat + 1) % 256 :=
    step_multDelay h.validR
  have hempty (hsilent : s.distanceReg = 0 ∧ s.multDistanceM = 0) :
      (step s i₀).distanceReg = 0 ∧ (step (step s i₀) i₁).distanceReg = 0 := by
    constructor
    · simp [step, hsilent.2]
    · simp [step, hsilent.2, h.validInt]
  have hnone₀ : s.emits = none := by
    refine emits_eq_none (by simp [State.validFall, h.validR]) ?_
    have hdelay := s.multDelay.isLt
    rcases h.silent with ⟨hreg, -, hfree⟩ | hlate
    · have := hfree 0 (by decide)
      exact .inl ⟨hreg, by omega⟩
    · exact .inr hlate.1
  have hnone₁ : (step s i₀).emits = none := by
    refine emits_eq_none (by simp [State.validFall, hR]) ?_
    rcases h.silent with ⟨hreg, hm, hfree⟩ | hlate
    · have := hfree 1 (by decide)
      exact .inl ⟨(hempty ⟨hreg, hm⟩).1, by omega⟩
    · exact .inr (by omega)
  have hnone₂ : (step (step s i₀) i₁).emits = none := by
    refine emits_eq_none (by simp [State.validFall, hload.validR]) ?_
    have hdelay := hload.delay
    rcases h.silent with ⟨hreg, hm, hfree⟩ | hlate
    · have := hfree 2 (by decide)
      exact .inl ⟨(hempty ⟨hreg, hm⟩).2, by omega⟩
    · exact .inr (by omega)
  have hvalid₁ (s : State) (i : Input) (hnone : s.emits = none) : (step s i).valid1 = false := by
    simp [step, hnone]
  refine ⟨hload.start_unshifted hquiet₂ ?_, step_out_eq_none _ h.valid1, step_out_eq_none _ (hvalid₁ _ _ hnone₀),
    step_out_eq_none _ (hvalid₁ _ _ hnone₁), step_out_eq_none _ (hvalid₁ _ _ hnone₂)⟩
  have hfree := h.unshifted
  simp only [List.forall_mem_cons, List.not_mem_nil, false_implies, implies_true, and_true] at hfree
  rw [Bool.eq_false_iff, Ne, shifts_iff, hload.delay]
  omega

/-! ### A stream of lists -/

/-- `valid_m` comes at the clocks `t 0`, `t 1`, …, and one clock behind each the list stands at the
input. -/
structure Pulses (t : ℕ → ℕ) (input : ℕ → Input) (list : ℕ → List (BitVec 16 × BitVec 8)) :
    Prop where
  apart : ∀ n, t n + 85 ≤ t (n + 1)
  close : ∀ n, t (n + 1) ≤ t n + 250
  validM : ∀ c, (input c).validM = true ↔ ∃ n, c = t n
  few : ∀ n, (list n).length ≤ 5
  nonzero : ∀ n, ∀ echo ∈ list n, echo.1 ≠ 0
  multDistance : ∀ n, (input (t n + 1)).multDistance = packDistance (list n)
  multPluse : ∀ n, (input (t n + 1)).multPluse = packPluse (list n)

/-- What a list is replayed as. -/
def expected (echoes : List (BitVec 16 × BitVec 8)) : List (BitVec 18 × BitVec 12) :=
  if echoes = [] then [(0xffff, 0)]
  else echoes.map fun echo => (echo.1.setWidth 18, echo.2.setWidth 12)

/-- What the output hands over behind pulse `n`, up to the next one. -/
def replayed (t : ℕ → ℕ) (input : ℕ → Input) (n : ℕ) : List (BitVec 18 × BitVec 12) :=
  logged step .reset input (fun s _ => s.out) (t n + 1) (t (n + 1) - t n)

theorem filterMap_played (d : BitVec 80) (p : BitVec 40) {m : ℕ} (hm : 81 ≤ m) :
    (List.range m).filterMap (played d p) =
      (List.range 5).filterMap fun i => played d p (20 * i) := by
  rw [filterMap_range_eq_of_none hm fun i hlo _ => played_of_late hlo]
  exact filterMap_range_stride (by decide) (fun i hi => played_of_mod_ne_zero hi) 4

/-- **A packed list** is played as it should be. -/
theorem played_pack {echoes : List (BitVec 16 × BitVec 8)} (hfew : echoes.length ≤ 5)
    (hnonzero : ∀ echo ∈ echoes, echo.1 ≠ 0) :
    ((List.range 5).filterMap fun i => played (packDistance echoes) (packPluse echoes) (20 * i)) =
      expected echoes := by
  have hslot (i : ℕ) (hi : i ∈ List.range 5) :
      played (packDistance echoes) (packPluse echoes) (20 * i) =
        if (echoes.reverse.map Prod.fst).getD (4 - i) 0 = 0 then
          if i = 4 then some (0xffff, 0) else none
        else
          some (((echoes.reverse.map Prod.fst).getD (4 - i) 0).setWidth 18,
            ((echoes.reverse.map Prod.snd).getD (4 - i) 0).setWidth 12) := by
    rw [List.mem_range] at hi
    have hplace : 20 * i / 20 = i := Nat.mul_div_cancel_left i (by decide)
    have hlast : 20 * i = 80 ↔ i = 4 := by omega
    rw [played, if_pos ⟨by omega, Nat.mul_mod_right 20 i⟩, hplace,
      slot_packDistance echoes (by omega), slot_packPluse echoes (by omega)]
    simp only [hlast]
  rw [List.filterMap_congr hslot]
  rcases echoes with _ | ⟨a, _ | ⟨b, _ | ⟨c, _ | ⟨d, _ | ⟨e, _ | ⟨f, rest⟩⟩⟩⟩⟩⟩
  case nil => rfl
  case cons.cons.cons.cons.cons.cons =>
    simp only [List.length_cons] at hfew
    omega
  all_goals
    simp only [List.forall_mem_cons, ne_eq, BitVec.ofNat_eq_ofNat] at hnonzero
    simp [List.range_succ, expected, hnonzero]

theorem Pulses.strictMono {t : ℕ → ℕ} {input : ℕ → Input}
    {list : ℕ → List (BitVec 16 × BitVec 8)} (h : Pulses t input list) : StrictMono t :=
  strictMono_nat_of_lt_succ fun n => by
    have hapart := h.apart n
    omega

theorem validM_between {t : ℕ → ℕ} {input : ℕ → Input} {list : ℕ → List (BitVec 16 × BitVec 8)}
    (h : Pulses t input list) {n c : ℕ} (hlo : t n < c) (hhi : c < t (n + 1)) :
    (input c).validM = false := by
  rw [Bool.eq_false_iff, Ne, h.validM]
  rintro ⟨m, rfl⟩
  exact h.strictMono.monotone.ne_of_lt_of_lt_nat n hlo hhi m rfl

/-- The four clocks behind a pulse, and those on which its list goes out. -/
theorem replayed_eq {t : ℕ → ℕ} {input : ℕ → Input} {list : ℕ → List (BitVec 16 × BitVec 8)}
    (h : Pulses t input list) (n : ℕ) {d : BitVec 80} {p : BitVec 40}
    (hplay : Playing d p 0 (trace step .reset input (t n + 3))) :
    replayed t input n = logged step .reset input (fun s _ => s.out) (t n + 1) 4 ++
        (List.range 5).filterMap (fun i => played d p (20 * i)) ∧
      Playing d p (t (n + 1) - t n - 3) (trace step .reset input (t (n + 1))) := by
  have hapart := h.apart n
  have hclose := h.close n
  obtain ⟨m, hm⟩ : ∃ m, t (n + 1) = t n + 3 + (m + 1) := ⟨t (n + 1) - t n - 4, by omega⟩
  have hquiet (k : ℕ) (hk : k < m + 1) : (input (t n + 3 + k)).validM = false :=
    validM_between h (n := n) (by omega) (by omega)
  constructor
  · have hlength : t (n + 1) - t n = 4 + m := by omega
    rw [replayed, hlength, logged_append, Nat.add_assoc (t n) 1 4, ← filterMap_played d p (m := m)
      (by omega)]
    congr 1
    exact hplay.log (by omega) hquiet
  · have hlast := hplay.run (m := m + 1) (by omega) hquiet (m + 1) le_rfl
    have hdelay : t (n + 1) - t n - 3 = m + 1 := by omega
    rw [hdelay, hm]
    exact hlast

/-- **The step from one pulse to the next.** -/
theorem replayed_of_ready {t : ℕ → ℕ} {input : ℕ → Input} {list : ℕ → List (BitVec 16 × BitVec 8)}
    (h : Pulses t input list) {n : ℕ} (hready : Ready (trace step .reset input (t n))) :
    replayed t input n = expected (list n) ∧ Ready (trace step .reset input (t (n + 1))) := by
  have hapart := h.apart n
  have hclose := h.close n
  have hquiet (k : ℕ) (hk : k < 2) : (input (t n + 1 + k)).validM = false :=
    validM_between h (n := n) (by omega) (by omega)
  have hstart := hready.start ((h.validM _).2 ⟨n, rfl⟩) (hquiet 0 (by decide)) (hquiet 1 (by decide))
    (input (t n + 3))
  rw [h.multDistance n, h.multPluse n] at hstart
  obtain ⟨hplay, hout₁, hout₂, hout₃, hout₄⟩ := hstart
  obtain ⟨hlog, hlast⟩ := replayed_eq h n hplay
  have hsilent : logged step .reset input (fun s _ => s.out) (t n + 1) 4 = [] := by
    rw [logged_eq_filterMap (f := fun _ => none)]
    · rfl
    · intro i hi
      match i, hi with
      | 0, _ => exact hout₁
      | 1, _ => exact hout₂
      | 2, _ => exact hout₃
      | 3, _ => exact hout₄
  refine ⟨?_, hlast.ready (by omega) (by omega)⟩
  rw [hlog, hsilent, List.nil_append, played_pack (h.few n) (h.nonzero n)]

/-! ### From reset to the first list -/

/-- Clock `c` after reset, before the first list. -/
structure Free (c : ℕ) (s : State) : Prop where
  delay : s.multDelay.toNat = c % 256
  validInt : s.validInt = false
  validR : s.validR = (false, false)
  distanceM : s.multDistanceM = 0
  pluseM : s.multPluseM = 0
  distanceReg : s.distanceReg = 0
  valid1 : s.valid1 = decide (c % 256 = 81)

theorem free_reset : Free 0 .reset := ⟨rfl, rfl, rfl, rfl, rfl, rfl, rfl⟩

theorem Free.emits {c : ℕ} (h : Free c s) :
    s.emits = if c % 256 = 80 then some (0xffff, 0) else none := by
  rw [emits_eq, h.delay, h.distanceReg]
  simp

theorem free_step {c : ℕ} (h : Free c s) (hquiet : i.validM = false) : Free (c + 1) (step s i) where
  delay := by
    rw [step_multDelay h.validR, h.delay]
    omega
  validInt := hquiet
  validR := by
    simp only [step, h.validR, h.validInt]
  distanceM := by
    simp [step, h.validInt, h.distanceM]
  pluseM := by
    simp [step, h.validInt, h.pluseM]
  distanceReg := by
    simp [step, h.distanceM]
  valid1 := by
    change s.emits.isSome = _
    rw [h.emits]
    split
    · exact (decide_eq_true (by omega)).symm
    · exact (decide_eq_false (by omega)).symm

/-- With a first pulse at clock `c` the free counter interferes: it shifts the list too early, or it
replays an empty one. -/
def Early (c : ℕ) : Prop := c % 256 ∈ [16, 36, 56, 76, 78, 79, 80, 81]

theorem Free.ready {c : ℕ} (h : Free c s) (hlate : ¬ Early c) : Ready s := by
  simp only [Early, List.mem_cons, List.not_mem_nil, or_false, not_or] at hlate
  constructor
  · exact h.validInt
  · exact h.validR
  · rw [h.valid1]
    exact decide_eq_false (by omega)
  · refine .inl ⟨h.distanceReg, h.distanceM, fun k hk => ?_⟩
    rw [h.delay]
    omega
  · rw [h.delay]
    simp only [List.forall_mem_cons, List.not_mem_nil, false_implies, implies_true, and_true]
    omega

theorem free_first {t : ℕ → ℕ} {input : ℕ → Input} {list : ℕ → List (BitVec 16 × BitVec 8)}
    (h : Pulses t input list) : Free (t 0) (trace step .reset input (t 0)) := by
  refine trace_induction (fun c s => Free c s) free_reset (fun c hc hfree => free_step hfree ?_) (t 0)
    le_rfl
  rw [Bool.eq_false_iff, Ne, h.validM]
  rintro ⟨m, rfl⟩
  exact absurd (h.strictMono.monotone (Nat.zero_le m)) (Nat.not_le.2 hc)

/-- **The replay of every list**, when the first pulse is not early. -/
theorem replayed_all {t : ℕ → ℕ} {input : ℕ → Input} {list : ℕ → List (BitVec 16 × BitVec 8)}
    (h : Pulses t input list) (hlate : ¬ Early (t 0)) (n : ℕ) :
    replayed t input n = expected (list n) := by
  have hready (n : ℕ) : Ready (trace step .reset input (t n)) := by
    induction n with
    | zero => exact (free_first h).ready hlate
    | succ n ih => exact (replayed_of_ready h ih).2
  exact (replayed_of_ready h (hready n)).1

/-! ### An early first pulse -/

theorem emits_of_empty (hdelay : s.multDelay.toNat = 80) (hempty : s.distanceReg = 0) :
    s.emits = some (0xffff, 0) := by
  rw [emits_eq, if_pos ⟨hdelay, hempty⟩]

theorem step_out_isSome (s : State) (i : Input) : (step s i).out.isSome = s.valid1 := by
  cases hvalid : s.valid1 <;> simp [State.out, step, hvalid]

/-- The free counter replays an empty list behind the first pulse. -/
theorem pulse_of_free {c : ℕ} (h : Free c s) (hlo : 78 ≤ c % 256) (hhi : c % 256 ≤ 81)
    (i₀ i₁ i₂ i₃ : Input) :
    (step s i₀).out.isSome ∨ (step (step s i₀) i₁).out.isSome ∨
      (step (step (step s i₀) i₁) i₂).out.isSome ∨
      (step (step (step (step s i₀) i₁) i₂) i₃).out.isSome := by
  have hemitted (s : State) (i : Input) (hemits : s.emits = some (0xffff, 0)) :
      (step s i).valid1 = true := by
    simp [step, hemits]
  have hR : (step s i₀).validR = (false, false) := by
    simp only [step, h.validR, h.validInt]
  have hdelay₁ : (step s i₀).multDelay.toNat = (c + 1) % 256 := by
    rw [step_multDelay h.validR, h.delay]
    omega
  have hdelay₂ : (step (step s i₀) i₁).multDelay.toNat = (c + 2) % 256 := by
    rw [step_multDelay hR, hdelay₁]
    omega
  simp only [step_out_isSome]
  obtain hc | hc | hc | hc : c % 256 = 81 ∨ c % 256 = 80 ∨ c % 256 = 79 ∨ c % 256 = 78 := by omega
  · refine .inl ?_
    rw [h.valid1]
    exact decide_eq_true hc
  · refine .inr (.inl (hemitted _ _ ?_))
    rw [h.emits, if_pos hc]
  · refine .inr (.inr (.inl (hemitted _ _ (emits_of_empty (by omega) ?_))))
    simp [step, h.distanceM]
  · refine .inr (.inr (.inr (hemitted _ _ (emits_of_empty (by omega) ?_))))
    simp [step, h.distanceM, h.validInt]

/-- One echo at 7 mm in every list. -/
theorem not_replayed_early {t : ℕ → ℕ} {input : ℕ → Input}
    (h : Pulses t input fun _ => [(7, 3)]) (hearly : Early (t 0)) :
    replayed t input 0 ≠ expected [(7, 3)] := by
  have hapart := h.apart 0
  have hfree := free_first h
  have hquiet (k : ℕ) (hk : k < 2) : (input (t 0 + 1 + k)).validM = false :=
    validM_between h (n := 0) (by omega) (by omega)
  have hload := loading_of_waiting hfree.validInt hfree.validR ((h.validM _).2 ⟨0, rfl⟩)
    (hquiet 0 (by decide))
  have hdistance := h.multDistance 0
  have hpluse := h.multPluse 0
  rw [hfree.delay] at hload
  have hshifts := shifts_iff (step (step (trace step .reset input (t 0)) (input (t 0)))
    (input (t 0 + 1)))
  rw [hload.delay] at hshifts
  simp only [Early, List.mem_cons, List.not_mem_nil, or_false] at hearly
  intro hsame
  by_cases hlate : 78 ≤ t 0 % 256
  · -- the pulse of the counter comes in addition to the list
    have hplay := hload.start_unshifted (hquiet 1 (by decide)) (by
      rw [Bool.eq_false_iff, Ne, hshifts]
      omega)
    rw [Nat.add_zero, hdistance, hpluse] at hplay
    have hlog := (replayed_eq h 0 hplay).1
    rw [played_pack (h.few 0) (h.nonzero 0), hsame] at hlog
    have hnone := List.self_eq_append_left.1 hlog
    rw [logged, List.filterMap_eq_nil_iff] at hnone
    have hout (k : ℕ) (hk : k < 4) : (trace step .reset input (t 0 + 1 + k)).out = none :=
      hnone (t 0 + 1 + k) (by simp; omega)
    have hpulse := pulse_of_free hfree hlate (by omega) (input (t 0)) (input (t 0 + 1)) (input (t 0 + 2))
      (input (t 0 + 3))
    have h0 := hout 0 (by decide)
    have h1 := hout 1 (by decide)
    have h2 := hout 2 (by decide)
    have h3 := hout 3 (by decide)
    simp only [trace] at h0 h1 h2 h3
    simp only [h0, h1, h2, h3] at hpulse
    simp at hpulse
  · -- the list has moved one slot up, and its place is replayed as empty
    have hshifted := hshifts.2 (by omega)
    rw [Nat.add_zero, hdistance, hpluse] at hload
    have hplay : Playing (packDistance [(7, 3)] <<< 16) (packPluse [(7, 3)] <<< 8) 0
        (trace step .reset input (t 0 + 3)) :=
      hload.start (hquiet 1 (by decide)) (by simp [hshifted]) (by simp [hshifted]) (by decide)
        (by decide)
    have hlog := (replayed_eq h 0 hplay).1
    have hplayed : ((List.range 5).filterMap fun i =>
        played (packDistance [(7, 3)] <<< 16) (packPluse [(7, 3)] <<< 8) (20 * i)) =
          [(7, 3), (0xffff, 0)] := by decide
    have hlength := congrArg List.length hlog
    rw [hplayed, hsame, List.length_append] at hlength
    change 1 = _ + 2 at hlength
    omega

theorem exists_pulses {t : ℕ → ℕ} (hapart : ∀ n, t n + 85 ≤ t (n + 1))
    (hclose : ∀ n, t (n + 1) ≤ t n + 250) : ∃ input, Pulses t input fun _ => [(7, 3)] := by
  classical
  refine ⟨fun c => ⟨packPluse [(7, 3)], packDistance [(7, 3)], decide (∃ n, c = t n)⟩,
    hapart, hclose, fun c => decide_eq_true_iff, fun _ => by decide, ?_, fun _ => rfl, fun _ => rfl⟩
  simp

/-- **The replay of the lists.** For pulses at the clocks `t 0`, `t 1`, …, every echo of every list is
handed on once and in order exactly if the first pulse is not early. -/
theorem replayed_iff {t : ℕ → ℕ} (hapart : ∀ n, t n + 85 ≤ t (n + 1))
    (hclose : ∀ n, t (n + 1) ≤ t n + 250) :
    (∀ input list, Pulses t input list → ∀ n, replayed t input n = expected (list n)) ↔
      ¬ Early (t 0) := by
  constructor
  · intro hall hearly
    obtain ⟨input, hpulses⟩ := exists_pulses hapart hclose
    exact not_replayed_early hpulses hearly (hall input _ hpulses 0)
  · exact fun hlate input list hpulses n => replayed_all hpulses hlate n

/-- A pulse every 100 clocks from clock `start` on, each with one echo at 7 mm. -/
def everyHundred (start c : ℕ) : Input where
  multPluse := packPluse [(7, 3)]
  multDistance := packDistance [(7, 3)]
  validM := start ≤ c && (c - start) % 100 == 0

theorem pulses_everyHundred (start : ℕ) :
    Pulses (fun n => start + 100 * n) (everyHundred start) fun _ => [(7, 3)] where
  apart := fun n => by omega
  close := fun n => by omega
  validM := by
    intro c
    simp only [everyHundred, Bool.and_eq_true, decide_eq_true_iff, beq_iff_eq]
    constructor
    · exact fun h => ⟨(c - start) / 100, by omega⟩
    · rintro ⟨n, rfl⟩
      omega
  few := fun _ => by decide
  nonzero := by simp
  multDistance := fun _ => rfl
  multPluse := fun _ => rfl

theorem replayed_everyHundred :
    Pulses (fun n => 4 + 100 * n) (everyHundred 4) (fun _ => [(7, 3)]) ∧
      replayed (fun n => 4 + 100 * n) (everyHundred 4) 8 = [(7, 3)] := by
  have hpulses := pulses_everyHundred 4
  have hlate : ¬ Early (4 + 100 * 0) := by
    unfold Early
    decide
  exact ⟨hpulses, (replayed_iff hpulses.apart hpulses.close).2 hlate _ _ hpulses 8⟩

/-- With a first pulse 16 clocks after reset the echo is followed by an empty list. -/
theorem not_replayed_first :
    ¬ ∀ (t : ℕ → ℕ) (input : ℕ → Input) (list : ℕ → List (BitVec 16 × BitVec 8)),
      Pulses t input list → ∀ n, replayed t input n = expected (list n) := by
  intro hall
  have hpulses := pulses_everyHundred 16
  refine not_replayed_early hpulses ?_ (hall _ _ _ hpulses 0)
  unfold Early
  decide

end SingleScan.MultDiv
