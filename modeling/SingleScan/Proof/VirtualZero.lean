import SingleScan.Lib.Trace
import SingleScan.Motor

/-!
# The virtual zero of the encoder wheel

The wheel has 44 teeth, one of which is long. A tooth begins with its low time. The module counts 43
falling edges behind the long tooth and then looks for the long tooth again, for which one tooth is
left. What it does is shown for one tooth at a time: `Tooth.search` for a tooth in which it looks, and
`Tooth.count` for one in which it counts.
-/

namespace SingleScan.MotorInfo

open Clocked

def run (input : ℕ → Input) (c : ℕ) : State := trace step State.reset input c

section Signals

variable (input : ℕ → Input) (c : ℕ)

theorem run_succ : run input (c + 1) = step (run input c) (input c) := rfl

theorem pulseSigR_eq :
    (run input (c + 2)).pulseSigR = ((input c).pulseSig, (input (c + 1)).pulseSig) := rfl

theorem pulseSigFall_iff :
    (run input (c + 2)).pulseSigFall = true ↔
      (input c).pulseSig = true ∧ (input (c + 1)).pulseSig = false := by
  rw [State.pulseSigFall, pulseSigR_eq, beq_iff_eq, Prod.mk.injEq]

theorem pulseSigRise_iff :
    (run input (c + 2)).pulseSigRise = true ↔
      (input c).pulseSig = false ∧ (input (c + 1)).pulseSig = true := by
  rw [State.pulseSigRise, pulseSigR_eq, beq_iff_eq, Prod.mk.injEq]

end Signals

theorem motorBlock_iff (s : State) : s.motorBlock true = false ↔ s.timeCnt.toNat < 3125000 := by
  simp [State.motorBlock]

/-! ### One tooth -/

/-- A tooth that is low from clock `start` on, and high behind the `low` first of its clocks. -/
structure Tooth (input : ℕ → Input) (start low period : ℕ) : Prop where
  lowTime : 100 ≤ low
  highTime : low < period
  short : period < 2 ^ 31
  level : ∀ j < period, (input (start + j)).pulseSig = decide (low ≤ j)
  ends : (input (start + period)).pulseSig = false
  fell : (run input (start + 1)).pulseSigFall = true
  enabled : ∀ j, (input (start + 2 + j)).motorEnable = true
  turning : ∀ j, (run input (start + 2 + j)).motorBlock true = false

def Ordinary (low period : ℕ) : Prop := 5 * (period - low) ≤ 7 * low

def Index (low period : ℕ) : Prop := 3 * low < 2 * (period - low)

section Tooth

variable {input : ℕ → Input} {start low period d : ℕ}

theorem Tooth.falls (h : Tooth input start low period) (hd : d < period) :
    (run input (start + 2 + d)).pulseSigFall = true ↔ d + 1 = period := by
  have hclock : start + 2 + d = start + d + 2 := by omega
  rw [hclock, pulseSigFall_iff, h.level d hd, decide_eq_true_eq, Nat.add_assoc]
  have hlow := h.lowTime
  have hhigh := h.highTime
  rcases Nat.lt_or_ge (d + 1) period with hlt | hge
  · rw [h.level (d + 1) hlt, decide_eq_false_iff_not]
    omega
  · obtain rfl : period = d + 1 := by omega
    rw [h.ends]
    exact iff_of_true ⟨by omega, rfl⟩ rfl

theorem Tooth.rises (h : Tooth input start low period) (hd : d < period) :
    (run input (start + 2 + d)).pulseSigRise = true ↔ d + 1 = low := by
  have hclock : start + 2 + d = start + d + 2 := by omega
  rw [hclock, pulseSigRise_iff, h.level d hd, decide_eq_false_iff_not, Nat.add_assoc]
  have hhigh := h.highTime
  rcases Nat.lt_or_ge (d + 1) period with hlt | hge
  · rw [h.level (d + 1) hlt, decide_eq_true_eq]
    omega
  · obtain rfl : period = d + 1 := by omega
    rw [h.ends]
    exact iff_of_false (fun hup => absurd hup.2 (by decide)) (by omega)

/-- The two counters in the tooth. They are two clocks late, and the last clock but one of the count
belongs to the next tooth. -/
theorem Tooth.counts (h : Tooth input start low period) (hd : d < period) :
    (run input (start + 2 + d)).pulseLowCnt.toNat =
        (if d + 1 = period then low - 1 else min d (low - 2)) ∧
      (run input (start + 2 + d)).pulseHighCnt.toNat = min (d - (low - 2)) (period - low) := by
  have hlow := h.lowTime
  have hhigh := h.highTime
  have hshort := h.short
  have hone : (1 : BitVec 32).toNat = 1 := rfl
  induction d with
  | zero =>
      have hrun : run input (start + 2) = step (run input (start + 1)) (input (start + 1)) := rfl
      have hzero : (0 : BitVec 32).toNat = 0 := rfl
      simp only [Nat.add_zero, hrun, step, h.fell, if_true, hzero]
      rw [if_neg (by omega)]
      omega
  | succ d ih =>
      obtain ⟨hlowCnt, hhighCnt⟩ := ih (by omega)
      have hrun : run input (start + 2 + (d + 1)) =
          step (run input (start + 2 + d)) (input (start + 2 + d)) := rfl
      have hfall : (run input (start + 2 + d)).pulseSigFall = false := by
        rw [Bool.eq_false_iff, Ne, h.falls (by omega)]
        omega
      rw [if_neg (by omega)] at hlowCnt
      have hlevel : (input (start + 2 + d)).pulseSig = decide (low ≤ d + 2 ∧ d + 2 < period) := by
        have hclock : start + 2 + d = start + (d + 2) := by omega
        rw [hclock]
        rcases Nat.lt_or_ge (d + 2) period with hlt | hge
        · rw [h.level (d + 2) hlt]
          simp [hlt]
        · obtain rfl : period = d + 2 := by omega
          rw [h.ends]
          simp
      simp only [hrun, step, hfall, Bool.false_eq_true, if_false, hlevel, decide_eq_true_eq]
      by_cases hup : low ≤ d + 2 ∧ d + 2 < period
      · rw [if_pos hup, if_pos hup, BitVec.toNat_add, hhighCnt, hlowCnt, hone,
          if_neg (by omega)]
        omega
      · rw [if_neg hup, if_neg hup, BitVec.toNat_add, hhighCnt, hlowCnt, hone]
        split <;> omega

theorem Tooth.indexTooth_iff (h : Tooth input start low period) (hd : d < period) :
    (run input (start + 2 + d)).indexTooth = true ↔
      (if d + 1 = period then low - 1 else min d (low - 2)) +
          (if d + 1 = period then low - 1 else min d (low - 2)) / 2 <
        min (d - (low - 2)) (period - low) := by
  obtain ⟨hlowCnt, hhighCnt⟩ := h.counts hd
  have hhigh := h.highTime
  have hshort := h.short
  have hle : (if d + 1 = period then low - 1 else min d (low - 2)) < 2 ^ 31 := by
    split <;> omega
  rw [State.indexTooth, decide_eq_true_eq, BitVec.toNat_add, BitVec.toNat_ushiftRight, hlowCnt,
    hhighCnt, Nat.shiftRight_eq_div_pow, Nat.pow_one, Nat.mod_eq_of_lt (by omega)]

theorem Tooth.not_indexTooth (h : Tooth input start low period) (hordinary : Ordinary low period)
    (hd : d < period) : (run input (start + 2 + d)).indexTooth = false := by
  have hlow := h.lowTime
  unfold Ordinary at hordinary
  rw [Bool.eq_false_iff, Ne, h.indexTooth_iff hd]
  split <;> omega

/-- In the long tooth the test succeeds two clocks before the falling edge is seen, at the latest. -/
theorem Tooth.indexTooth (h : Tooth input start low period) (hindex : Index low period)
    (hd : d + 2 = period) : (run input (start + 2 + d)).indexTooth = true := by
  have hlow := h.lowTime
  have hhigh := h.highTime
  unfold Index at hindex
  rw [h.indexTooth_iff (by omega), if_neg (by omega)]
  omega

/-- The state machine looks for the long tooth. -/
def Searching (s : State) : Prop :=
  s.cs = .start1 ∨ s.cs = .start2 ∨ s.cs = .work ∧ s.motorStepCnt.toNat = 43

/-- It looks for the long tooth, `d` clocks behind the begin of one. -/
structure Looking (low period d : ℕ) (s : State) : Prop where
  cs : s.cs = .start1 ∧ d < low ∨ s.cs = .work ∧ d = 0 ∧ s.motorStepCnt.toNat = 43 ∨
    s.cs = .start2 ∨ s.cs = .skip ∧ Index low period
  found : Index low period → d + 1 = period → s.cs = .skip

theorem Looking.virtualZeroFlag {s : State} (h : Looking low period d s) :
    s.virtualZeroFlag = false := by
  rcases h.cs with ⟨hcs, -⟩ | ⟨-, -, hcnt⟩ | hcs | ⟨hcs, -⟩
  · simp [State.virtualZeroFlag, hcs]
  · have hne : s.motorStepCnt ≠ 8#8 := fun heq => by
      rw [heq] at hcnt
      exact absurd hcnt (by decide)
    simp [State.virtualZeroFlag, hne]
  · simp [State.virtualZeroFlag, hcs]
  · simp [State.virtualZeroFlag, hcs]

theorem Tooth.looking (h : Tooth input start low period)
    (hkind : Ordinary low period ∨ Index low period)
    (hstart : Searching (run input (start + 2))) (hd : d < period) :
    Looking low period d (run input (start + 2 + d)) := by
  have hlow := h.lowTime
  have hhigh := h.highTime
  induction d with
  | zero =>
      refine ⟨?_, fun _ hone => by omega⟩
      rcases hstart with hcs | hcs | hcs
      · exact .inl ⟨hcs, by omega⟩
      · exact .inr (.inr (.inl hcs))
      · exact .inr (.inl ⟨hcs.1, rfl, hcs.2⟩)
  | succ d ih =>
      have hnow := ih (by omega)
      have hns : (run input (start + 2 + (d + 1))).cs =
          (run input (start + 2 + d)).ns (input (start + 2 + d)).motorEnable := rfl
      have hfall : (run input (start + 2 + d)).pulseSigFall = false := by
        rw [Bool.eq_false_iff, Ne, h.falls (by omega)]
        omega
      rw [h.enabled d] at hns
      simp only [State.ns, if_true] at hns
      rcases hnow.cs with ⟨hcs, hbelow⟩ | ⟨hcs, hzero, hcnt⟩ | hcs | ⟨hcs, hindex⟩
      · simp only [hcs] at hns
        by_cases hrise : d + 1 = low
        · rw [if_pos ((h.rises (by omega)).mpr hrise)] at hns
          refine ⟨.inr (.inr (.inl hns)), fun hindex hend => ?_⟩
          unfold Index at hindex
          omega
        · rw [if_neg (fun hup => hrise ((h.rises (by omega)).mp hup))] at hns
          exact ⟨.inl ⟨hns, by omega⟩, fun _ hend => by omega⟩
      · simp only [hcs, h.turning d, Bool.false_eq_true, if_false, hcnt, le_refl, if_true] at hns
        exact ⟨.inr (.inr (.inl hns)), fun _ hend => by omega⟩
      · simp only [hcs] at hns
        cases htest : (run input (start + 2 + d)).indexTooth with
        | true =>
            rw [htest, if_pos rfl] at hns
            rcases hkind with hordinary | hindex
            · rw [h.not_indexTooth hordinary (by omega)] at htest
              exact absurd htest (by decide)
            · exact ⟨.inr (.inr (.inr ⟨hns, hindex⟩)), fun _ _ => hns⟩
        | false =>
            rw [htest, if_neg (by decide)] at hns
            refine ⟨.inr (.inr (.inl hns)), fun hindex hend => ?_⟩
            rw [h.indexTooth hindex (by omega)] at htest
            exact absurd htest (by decide)
      · simp only [hcs, hfall, Bool.false_eq_true, if_false] at hns
        exact ⟨.inr (.inr (.inr ⟨hns, hindex⟩)), fun _ _ => hns⟩

/-- **A tooth in which the state machine looks.** Behind the long tooth it counts from zero. -/
theorem Tooth.search (h : Tooth input start low period)
    (hkind : Ordinary low period ∨ Index low period)
    (hstart : Searching (run input (start + 2))) :
    (Ordinary low period → Searching (run input (start + 2 + period))) ∧
      (Index low period → (run input (start + 2 + period)).cs = .work ∧
        (run input (start + 2 + period)).motorStepCnt.toNat = 0) := by
  have hlow := h.lowTime
  have hhigh := h.highTime
  obtain ⟨d, rfl⟩ : ∃ d, period = d + 1 := ⟨period - 1, by omega⟩
  have hlast := h.looking hkind hstart (Nat.lt_succ_self d)
  have hns : (run input (start + 2 + (d + 1))).cs =
      (run input (start + 2 + d)).ns (input (start + 2 + d)).motorEnable := rfl
  rw [h.enabled d] at hns
  simp only [State.ns, if_true] at hns
  constructor
  · intro hordinary
    have htest := h.not_indexTooth hordinary (Nat.lt_succ_self d)
    rcases hlast.cs with ⟨-, hbelow⟩ | ⟨-, hzero, -⟩ | hcs | ⟨-, hindex⟩
    · omega
    · omega
    · simp only [hcs, htest, Bool.false_eq_true, if_false] at hns
      exact .inr (.inl hns)
    · unfold Ordinary at hordinary
      unfold Index at hindex
      omega
  · intro hindex
    have hcs := hlast.found hindex rfl
    have hfall := (h.falls (Nat.lt_succ_self d)).mpr rfl
    have hcnt : (run input (start + 2 + (d + 1))).motorStepCnt = 0 := by
      have hrun : run input (start + 2 + (d + 1)) =
          step (run input (start + 2 + d)) (input (start + 2 + d)) := rfl
      rw [hrun]
      simp [step, hcs]
    simp only [hcs, hfall, if_true] at hns
    exact ⟨hns, by rw [hcnt]; rfl⟩

/-- **A tooth in which the state machine counts.** -/
theorem Tooth.count (h : Tooth input start low period) {m : ℕ} (hm : m < 43)
    (hcs : (run input (start + 2)).cs = .work)
    (hcnt : (run input (start + 2)).motorStepCnt.toNat = m) (hd : d < period) :
    (run input (start + 2 + d)).cs = .work ∧
      (run input (start + 2 + d)).motorStepCnt.toNat = m ∧
        (run input (start + 2 + (d + 1))).cs = .work ∧
          (run input (start + 2 + (d + 1))).motorStepCnt.toNat =
            if d + 1 = period then m + 1 else m := by
  have hone : (1 : BitVec 8).toNat = 1 := rfl
  have hnext : ∀ d < period, (run input (start + 2 + d)).cs = .work →
      (run input (start + 2 + d)).motorStepCnt.toNat = m →
      (run input (start + 2 + (d + 1))).cs = .work ∧
        (run input (start + 2 + (d + 1))).motorStepCnt.toNat =
          if d + 1 = period then m + 1 else m := by
    intro d hd hcs hcnt
    have hrun : run input (start + 2 + (d + 1)) =
        step (run input (start + 2 + d)) (input (start + 2 + d)) := rfl
    have hsmall : ¬ 43 ≤ m := by omega
    rw [hrun]
    refine ⟨by simp [step, State.ns, h.enabled d, hcs, h.turning d, hcnt, hsmall], ?_⟩
    by_cases hend : d + 1 = period
    · simp only [step, hcs, if_true, if_pos ((h.falls hd).mpr hend), if_pos hend, BitVec.toNat_add,
        hcnt, hone]
      omega
    · simp only [step, hcs, if_true, if_neg (fun hup => hend ((h.falls hd).mp hup)), if_neg hend,
        hcnt]
  have hall : (run input (start + 2 + d)).cs = .work ∧
      (run input (start + 2 + d)).motorStepCnt.toNat = m := by
    induction d with
    | zero => exact ⟨hcs, hcnt⟩
    | succ d ih =>
        obtain ⟨hcs', hcnt'⟩ := ih (by omega)
        have hstep := hnext d (by omega) hcs' hcnt'
        rw [if_neg (by omega)] at hstep
        exact hstep
  exact ⟨hall.1, hall.2, hnext d hd hall.1 hall.2⟩

end Tooth

/-! ### The wheel -/

/-- The motor is enabled from clock `on` on. The wheel turns with the teeth `k` between the falling
edges `fall k` and `fall (k + 1)`, the first of which are the first ones that the module sees, and every
44th tooth is long. -/
structure Turning (input : ℕ → Input) (on : ℕ) (fall rise : ℕ → ℕ) (index : ℕ) : Prop where
  enabled : ∀ c, on ≤ c → (input c).motorEnable = true
  disabled : ∀ c, c + 1 = on → (input c).motorEnable = false
  first : on ≤ fall 0 + 1
  edge : ∃ d, fall 0 = d + 1 ∧ (input d).pulseSig = true
  none : ∀ d, on ≤ d + 2 → d + 1 < fall 0 → (input d).pulseSig = true → (input (d + 1)).pulseSig = true
  low : ∀ k c, fall k ≤ c → c < rise k → (input c).pulseSig = false
  high : ∀ k c, rise k ≤ c → c < fall (k + 1) → (input c).pulseSig = true
  index_lt : index < 44
  lowTime : ∀ k, fall k + 100 ≤ rise k
  highTime : ∀ k, rise k < fall (k + 1)
  ordinary : ∀ k, k % 44 ≠ index → 5 * (fall (k + 1) - rise k) ≤ 7 * (rise k - fall k)
  indexTooth : ∀ k, k % 44 = index → 3 * (rise k - fall k) < 2 * (fall (k + 1) - rise k)

/-- From clock `on` on the motor is not blocked. -/
def Unblocked (input : ℕ → Input) (on : ℕ) : Prop :=
  ∀ c, on ≤ c → (run input c).motorBlock (input c).motorEnable = false

section Wheel

variable {input : ℕ → Input} {on : ℕ} {fall rise : ℕ → ℕ} {index : ℕ}

/-- Without rising edges the timer of the blockade goes on. -/
theorem timeCnt_stall {a : ℕ} (henabled : ∀ c, a ≤ c → (input c).motorEnable = true) {n : ℕ}
    (hnone : ∀ j < n, (run input (a + j)).pulseSigRise = false) :
    min n 3125000 ≤ (run input (a + n)).timeCnt.toNat := by
  induction n with
  | zero => omega
  | succ n ih =>
      have hbefore := ih fun j hj => hnone j (by omega)
      have hrun : run input (a + (n + 1)) = step (run input (a + n)) (input (a + n)) := rfl
      have hone : (1 : BitVec 32).toNat = 1 := rfl
      simp only [hrun, step, henabled (a + n) (by omega), hnone n (Nat.lt_succ_self n),
        Bool.false_eq_true, if_true, if_false]
      split
      · rw [BitVec.toNat_add, hone]
        omega
      · omega

theorem Turning.fall_lt (h : Turning input on fall rise index) (k : ℕ) : fall k < fall (k + 1) := by
  have hlow := h.lowTime k
  have hhigh := h.highTime k
  omega

theorem Turning.on_le (h : Turning input on fall rise index) (k : ℕ) : on ≤ fall k + 1 := by
  induction k with
  | zero => exact h.first
  | succ k ih =>
      have hlt := h.fall_lt k
      omega

theorem Turning.rise_lt (h : Turning input on fall rise index) (hblock : Unblocked input on)
    {a n : ℕ} (ha : on ≤ a) (hnone : ∀ j < n, (run input (a + j)).pulseSigRise = false) :
    n < 3125000 := by
  have hstall := timeCnt_stall (fun c hc => h.enabled c (by omega)) hnone
  have hfree := hblock (a + n) (by omega)
  rw [h.enabled (a + n) (by omega), motorBlock_iff] at hfree
  omega

/-- Where a tooth of the wheel stands still the blockade is near. -/
theorem Turning.short (h : Turning input on fall rise index) (hblock : Unblocked input on) (k : ℕ) :
    fall (k + 1) - fall k < 2 ^ 31 := by
  have hlow := h.lowTime k
  have hhigh := h.highTime k
  have hnext := h.lowTime (k + 1)
  have hon := h.on_le k
  have hlowShort := h.rise_lt hblock (a := fall k + 2) (n := rise k - fall k - 1) (by omega)
    fun j hj => by
      have hclock : fall k + 2 + j = fall k + j + 2 := by omega
      rw [hclock, Bool.eq_false_iff, Ne, pulseSigRise_iff,
        h.low k (fall k + j + 1) (by omega) (by omega)]
      simp
  have hhighShort := h.rise_lt hblock (a := rise k + 2) (n := fall (k + 1) - rise k) (by omega)
    fun j hj => by
      have hclock : rise k + 2 + j = rise k + j + 2 := by omega
      rw [hclock, Bool.eq_false_iff, Ne, pulseSigRise_iff, h.high k (rise k + j) (by omega) (by omega)]
      simp
  omega

theorem Turning.fell (h : Turning input on fall rise index) (k : ℕ) :
    (run input (fall k + 1)).pulseSigFall = true := by
  obtain ⟨d, hd, hup⟩ : ∃ d, fall k = d + 1 ∧ (input d).pulseSig = true := by
    cases k with
    | zero => exact h.edge
    | succ k =>
        have hhigh := h.highTime k
        exact ⟨fall (k + 1) - 1, by omega, h.high k _ (by omega) (by omega)⟩
  have hlow := h.lowTime k
  rw [hd, pulseSigFall_iff]
  exact ⟨hup, h.low k (d + 1) hd.le (by omega)⟩

theorem Turning.tooth (h : Turning input on fall rise index) (hblock : Unblocked input on) (k : ℕ) :
    Tooth input (fall k) (rise k - fall k) (fall (k + 1) - fall k) where
  lowTime := by
    have := h.lowTime k
    omega
  highTime := by
    have := h.lowTime k
    have := h.highTime k
    omega
  short := h.short hblock k
  level j hj := by
    have hlow := h.lowTime k
    rcases Nat.lt_or_ge (fall k + j) (rise k) with hlt | hge
    · rw [h.low k _ (by omega) hlt, eq_comm, decide_eq_false_iff_not]
      omega
    · rw [h.high k _ hge (by omega), eq_comm, decide_eq_true_eq]
      omega
  ends := by
    have hlt := h.fall_lt k
    have hlow := h.lowTime (k + 1)
    exact h.low (k + 1) _ (by omega) (by omega)
  fell := h.fell k
  enabled j := by
    have hon := h.on_le k
    exact h.enabled _ (by omega)
  turning j := by
    have hon := h.on_le k
    have hfree := hblock (fall k + 2 + j) (by omega)
    rwa [h.enabled _ (by omega)] at hfree

theorem Turning.kind (h : Turning input on fall rise index) (k : ℕ) :
    (k % 44 ≠ index → Ordinary (rise k - fall k) (fall (k + 1) - fall k)) ∧
      (k % 44 = index → Index (rise k - fall k) (fall (k + 1) - fall k)) := by
  have hlow := h.lowTime k
  have hsum : fall (k + 1) - fall k - (rise k - fall k) = fall (k + 1) - rise k := by omega
  unfold Ordinary Index
  rw [hsum]
  exact ⟨h.ordinary k, h.indexTooth k⟩

/-- In front of the first falling edge the state machine waits. -/
theorem Turning.idle (h : Turning input on fall rise index) {c : ℕ} (hon : on ≤ c)
    (hc : c ≤ fall 0 + 1) : (run input c).cs = .idle := by
  induction c, hon using Nat.le_induction with
  | base =>
      cases on with
      | zero => rfl
      | succ c =>
          rw [run_succ]
          simp [step, State.ns, h.disabled c rfl]
  | succ c hle ih =>
      have hfall : (run input c).pulseSigFall = false := by
        match c, hle, hc with
        | 0, _, _ => rfl
        | 1, _, _ => rfl
        | d + 2, hle, hc =>
            rw [Bool.eq_false_iff, Ne, pulseSigFall_iff]
            rintro ⟨hup, hdown⟩
            rw [h.none d hle (by omega) hup] at hdown
            exact absurd hdown (by decide)
      rw [run_succ]
      simp [step, State.ns, h.enabled c hle, ih (by omega), hfall]

/-- What the state machine does at the begin of tooth `k`. -/
theorem Turning.entry (h : Turning input on fall rise index) (hblock : Unblocked input on) (k : ℕ) :
    (k ≤ index → Searching (run input (fall k + 2))) ∧
      (index < k → (run input (fall k + 2)).cs = .work ∧
        (run input (fall k + 2)).motorStepCnt.toNat = (k - index - 1) % 44) := by
  have hindex := h.index_lt
  induction k with
  | zero =>
      refine ⟨fun _ => .inl ?_, fun hlt => by omega⟩
      have hwait := h.idle h.first le_rfl
      have hrun : run input (fall 0 + 2) = step (run input (fall 0 + 1)) (input (fall 0 + 1)) := rfl
      rw [hrun]
      simp [step, State.ns, h.enabled _ h.first, hwait, h.fell 0]
  | succ k ih =>
      obtain ⟨hsearch, hcount⟩ := ih
      have htooth := h.tooth hblock k
      obtain ⟨hordinary, hlong⟩ := h.kind k
      have hlt := h.fall_lt k
      have hclock : fall k + 2 + (fall (k + 1) - fall k) = fall (k + 1) + 2 := by omega
      rcases Nat.lt_trichotomy k index with hbefore | rfl | hbehind
      · have hord := hordinary (by omega)
        have hnext := (htooth.search (.inl hord) (hsearch hbefore.le)).1 hord
        rw [hclock] at hnext
        exact ⟨fun _ => hnext, fun hgt => by omega⟩
      · have hidx := hlong (by omega)
        have hnext := (htooth.search (.inr hidx) (hsearch le_rfl)).2 hidx
        rw [hclock] at hnext
        refine ⟨fun hle => by omega, fun _ => ⟨hnext.1, ?_⟩⟩
        rw [hnext.2]
        omega
      · obtain ⟨hcs, hcnt⟩ := hcount hbehind
        refine ⟨fun hle => by omega, fun _ => ?_⟩
        by_cases hlast : (k - index - 1) % 44 = 43
        · have hidx := hlong (by omega)
          have hnext := (htooth.search (.inr hidx) (.inr (.inr ⟨hcs, hcnt.trans hlast⟩))).2 hidx
          rw [hclock] at hnext
          refine ⟨hnext.1, ?_⟩
          rw [hnext.2]
          omega
        · have hend : fall (k + 1) - fall k - 1 + 1 = fall (k + 1) - fall k := by omega
          obtain ⟨-, -, hcs', hcnt'⟩ := htooth.count (by omega) hcs hcnt
            (d := fall (k + 1) - fall k - 1) (by omega)
          rw [hend, hclock] at hcs' hcnt'
          rw [if_pos rfl] at hcnt'
          refine ⟨hcs', ?_⟩
          rw [hcnt']
          omega

theorem Turning.virtualZeroFlag (h : Turning input on fall rise index) (hblock : Unblocked input on)
    (k : ℕ) {d : ℕ} (hd : d < fall (k + 1) - fall k) :
    (run input (fall k + 2 + d)).virtualZeroFlag = true ↔
      d + 1 = fall (k + 1) - fall k ∧ index < k ∧ (k - index - 1) % 44 = 8 := by
  have hindex := h.index_lt
  have htooth := h.tooth hblock k
  obtain ⟨hordinary, hlong⟩ := h.kind k
  have hkind : Ordinary (rise k - fall k) (fall (k + 1) - fall k) ∨
      Index (rise k - fall k) (fall (k + 1) - fall k) := by
    by_cases hk : k % 44 = index
    · exact .inr (hlong hk)
    · exact .inl (hordinary hk)
  obtain ⟨hsearch, hcount⟩ := h.entry hblock k
  by_cases hwork : index < k ∧ (k - index - 1) % 44 ≠ 43
  · obtain ⟨hcs, hcnt⟩ := hcount hwork.1
    obtain ⟨hcs', hcnt', -, -⟩ := htooth.count (by omega) hcs hcnt hd
    have height : (run input (fall k + 2 + d)).motorStepCnt = 8 ↔ (k - index - 1) % 44 = 8 := by
      rw [← BitVec.toNat_inj, hcnt']
      rfl
    have hfall := htooth.falls hd
    simp only [State.virtualZeroFlag, Bool.and_eq_true, beq_iff_eq, hcs', height, hfall, and_true,
      hwork.1, true_and]
  · have hstart : Searching (run input (fall k + 2)) := by
      rcases Nat.lt_or_ge index k with hlt | hge
      · obtain ⟨hcs, hcnt⟩ := hcount hlt
        exact .inr (.inr ⟨hcs, by omega⟩)
      · exact hsearch hge
    rw [(htooth.looking hkind hstart hd).virtualZeroFlag]
    exact iff_of_false (by decide) (by omega)

theorem Turning.stepCnt (h : Turning input on fall rise index) (hblock : Unblocked input on) {k : ℕ}
    (hk : index + 10 ≤ k) {d : ℕ} (hd : d < fall (k + 1) - fall k) :
    (run input (fall k + 2 + d)).stepCnt.toNat = (k - (index + 10)) % 44 := by
  have hone : (1 : BitVec 8).toNat = 1 := rfl
  -- what one clock of a tooth does
  have hstep : ∀ k d, d < fall (k + 1) - fall k →
      (run input (fall k + 2 + (d + 1))).stepCnt.toNat =
        if d + 1 = fall (k + 1) - fall k then
          if index < k ∧ (k - index - 1) % 44 = 8 then 0
          else ((run input (fall k + 2 + d)).stepCnt.toNat + 1) % 2 ^ 8
        else (run input (fall k + 2 + d)).stepCnt.toNat := by
    intro k d hd
    have hrun : run input (fall k + 2 + (d + 1)) =
        step (run input (fall k + 2 + d)) (input (fall k + 2 + d)) := rfl
    have hon := h.on_le k
    have hzero := h.virtualZeroFlag hblock k hd
    have hfall := (h.tooth hblock k).falls hd
    simp only [hrun, step, h.enabled (fall k + 2 + d) (by omega), if_true, hzero, hfall]
    by_cases hend : d + 1 = fall (k + 1) - fall k
    · by_cases height : index < k ∧ (k - index - 1) % 44 = 8
      · rw [if_pos ⟨hend, height⟩, if_pos hend, if_pos height]
        rfl
      · rw [if_neg fun hup => height hup.2, if_pos hend, if_pos hend, if_neg height,
          BitVec.toNat_add, hone]
    · rw [if_neg fun hup => hend hup.1, if_neg hend, if_neg hend]
  have hstays : ∀ k d, d < fall (k + 1) - fall k →
      (run input (fall k + 2 + d)).stepCnt.toNat = (run input (fall k + 2)).stepCnt.toNat := by
    intro k d
    induction d with
    | zero => exact fun _ => rfl
    | succ d ih =>
        intro hd
        rw [hstep k d (by omega), if_neg (by omega), ih (by omega)]
  have hnext : ∀ k, (run input (fall (k + 1) + 2)).stepCnt.toNat =
      if index < k ∧ (k - index - 1) % 44 = 8 then 0
      else ((run input (fall k + 2)).stepCnt.toNat + 1) % 2 ^ 8 := by
    intro k
    have hlt := h.fall_lt k
    have hclock : fall k + 2 + (fall (k + 1) - fall k - 1 + 1) = fall (k + 1) + 2 := by omega
    have hlast := hstep k (fall (k + 1) - fall k - 1) (by omega)
    rw [hclock, if_pos (by omega), hstays k _ (by omega)] at hlast
    exact hlast
  rw [hstays k d hd]
  induction k, hk using Nat.le_induction generalizing d with
  | base =>
      rw [hnext (index + 9), if_pos (by omega), Nat.sub_self]
  | succ k hle ih =>
      have hlt := h.fall_lt k
      rw [hnext k]
      have hbefore := ih (d := 0) (by omega)
      split
      · omega
      · rw [hbefore]
        omega

/-- Every clock from the first falling edge on belongs to a tooth. -/
theorem Turning.exists_tooth (h : Turning input on fall rise index) {c : ℕ} (hc : fall 0 + 2 ≤ c) :
    ∃ k d, c = fall k + 2 + d ∧ d < fall (k + 1) - fall k := by
  induction c, hc using Nat.le_induction with
  | base =>
      have hlt := h.fall_lt 0
      exact ⟨0, 0, rfl, by omega⟩
  | succ c _ ih =>
      obtain ⟨k, d, hclock, hd⟩ := ih
      by_cases hend : d + 1 = fall (k + 1) - fall k
      · have hlt := h.fall_lt (k + 1)
        exact ⟨k + 1, 0, by omega, by omega⟩
      · exact ⟨k, d + 1, by omega, by omega⟩

theorem Turning.fall_strictMono (h : Turning input on fall rise index) : StrictMono fall :=
  strictMono_nat_of_lt_succ h.fall_lt

theorem Turning.rose (h : Turning input on fall rise index) (k : ℕ) :
    (run input (rise k + 1)).pulseSigRise = true := by
  have hlow := h.lowTime k
  have hhigh := h.highTime k
  obtain ⟨d, hd⟩ : ∃ d, rise k = d + 1 := ⟨rise k - 1, by omega⟩
  rw [hd, pulseSigRise_iff]
  exact ⟨h.low k d (by omega) (by omega), h.high k (d + 1) hd.le (by omega)⟩

/-- The timer of the blockade starts anew with a rising edge. -/
theorem timeCnt_le (input : ℕ → Input) {a : ℕ} (hstart : (run input a).timeCnt.toNat = 0) (j : ℕ) :
    (run input (a + j)).timeCnt.toNat ≤ j := by
  induction j with
  | zero => exact hstart.le
  | succ j ih =>
      have hrun : run input (a + (j + 1)) = step (run input (a + j)) (input (a + j)) := rfl
      have hone : (1 : BitVec 32).toNat = 1 := rfl
      have hzero : (0 : BitVec 32).toNat = 0 := rfl
      simp only [hrun, step]
      split_ifs
      · omega
      · rw [BitVec.toNat_add, hone]
        omega
      · omega
      · omega

/-- A wheel that is fast enough is not taken for a blocked one. -/
theorem Turning.unblocked (h : Turning input on fall rise index) (hfirst : fall 0 ≤ 1000000)
    (hperiod : ∀ k, fall (k + 1) ≤ fall k + 1000000) : Unblocked input on := by
  intro c hon
  rw [h.enabled c hon, motorBlock_iff]
  rcases Nat.lt_or_ge c (fall 0 + 2) with hearly | hlate
  · have hcnt := timeCnt_le input (a := 0) rfl c
    rw [Nat.zero_add] at hcnt
    omega
  · obtain ⟨k, d, rfl, hd⟩ := h.exists_tooth hlate
    have hnow := hperiod k
    cases k with
    | zero =>
        have hcnt := timeCnt_le input (a := 0) rfl (fall 0 + 2 + d)
        rw [Nat.zero_add] at hcnt
        omega
    | succ k =>
        have hbefore := hperiod k
        have hlow := h.lowTime k
        have hhigh := h.highTime k
        have hrose := h.rose k
        have hon' := h.on_le k
        have hstart : (run input (rise k + 2)).timeCnt.toNat = 0 := by
          have hrun : run input (rise k + 2) = step (run input (rise k + 1)) (input (rise k + 1)) :=
            rfl
          rw [hrun]
          simp only [step, h.enabled (rise k + 1) (by omega), hrose, if_true]
          rfl
        have hcnt := timeCnt_le input hstart (fall (k + 1) + d - rise k)
        have hclock : rise k + 2 + (fall (k + 1) + d - rise k) = fall (k + 1) + 2 + d := by omega
        rw [hclock] at hcnt
        omega

/-- **The virtual zero** comes once in every turn, with the ninth falling edge behind the one that ends
the long tooth, and `step_cnt` counts the teeth from there. -/
theorem virtual_zero_of_turn (h : Turning input on fall rise index) (hblock : Unblocked input on) :
    (∀ c, on ≤ c → ((run input c).virtualZeroFlag = true ↔
        ∃ turn, c = fall (index + 1 + 44 * turn + 9) + 1)) ∧
      ∀ turn tooth, tooth < 44 → ∀ c, fall (index + 10 + 44 * turn + tooth) + 1 < c →
        c ≤ fall (index + 10 + 44 * turn + tooth + 1) + 1 →
          (run input c).stepCnt.toNat = tooth := by
  refine ⟨fun c hon => ?_, fun turn tooth htooth c hlo hhi => ?_⟩
  · rcases Nat.lt_or_ge c (fall 0 + 2) with hearly | hlate
    · have hidle := h.idle hon (by omega)
      have hlow : (run input c).virtualZeroFlag = false := by simp [State.virtualZeroFlag, hidle]
      rw [hlow]
      refine iff_of_false (by decide) ?_
      rintro ⟨turn, hturn⟩
      have := h.fall_strictMono (show 0 < index + 1 + 44 * turn + 9 by omega)
      omega
    · obtain ⟨k, d, rfl, hd⟩ := h.exists_tooth hlate
      rw [h.virtualZeroFlag hblock k hd]
      constructor
      · rintro ⟨hend, hlt, height⟩
        refine ⟨(k - index - 1) / 44, ?_⟩
        have hk : index + 1 + 44 * ((k - index - 1) / 44) + 9 = k + 1 := by omega
        rw [hk]
        omega
      · rintro ⟨turn, hturn⟩
        have hmono := h.fall_strictMono
        have h1 : k < index + 1 + 44 * turn + 9 := hmono.lt_iff_lt.mp (by omega)
        have h2 : index + 1 + 44 * turn + 9 < k + 1 + 1 := by
          have hnext := h.fall_lt (k + 1)
          exact hmono.lt_iff_lt.mp (by omega)
        have hk : k + 1 = index + 1 + 44 * turn + 9 := by omega
        rw [← hk] at hturn
        omega
  · have hcnt := h.stepCnt hblock (k := index + 10 + 44 * turn + tooth) (by omega)
      (d := c - (fall (index + 10 + 44 * turn + tooth) + 2)) (by omega)
    have hclock : fall (index + 10 + 44 * turn + tooth) + 2 +
        (c - (fall (index + 10 + 44 * turn + tooth) + 2)) = c := by omega
    rw [hclock] at hcnt
    rw [hcnt]
    omega

end Wheel

/-- A wheel at constant speed, with the proportions of the test bench. -/
def fallOf (k : ℕ) : ℕ := 1000 + 250 * k + 300 * ((k + 41) / 44)

def riseOf (k : ℕ) : ℕ := fallOf k + 150

def wheel (c : ℕ) : Input where
  motorEnable := true
  pulseSig := decide (c < 1000 ∨ ∃ k < c, riseOf k ≤ c ∧ c < fallOf (k + 1))

theorem turning_wheel : Turning wheel 0 fallOf riseOf 2 where
  enabled _ _ := rfl
  disabled c hc := absurd hc (Nat.succ_ne_zero c)
  first := Nat.zero_le _
  edge := ⟨999, rfl, by rw [wheel, decide_eq_true_eq]; exact .inl (by decide)⟩
  none d _ hlt _ := decide_eq_true (.inl hlt)
  low k c hlo hhi := by
    rw [wheel, decide_eq_false_iff_not]
    unfold riseOf at hhi ⊢
    unfold fallOf at hlo hhi ⊢
    rintro (hearly | ⟨j, -, hrise, hfall⟩)
    · omega
    · rcases Nat.lt_or_ge j k with hlt | hge
      · have := Nat.div_le_div_right (c := 44) (show j + 1 + 41 ≤ k + 41 by omega)
        omega
      · have := Nat.div_le_div_right (c := 44) (show k + 41 ≤ j + 41 by omega)
        omega
  high k c hlo hhi := by
    rw [wheel, decide_eq_true_eq]
    refine .inr ⟨k, ?_, hlo, hhi⟩
    unfold riseOf fallOf at hlo
    omega
  index_lt := by decide
  lowTime k := by
    unfold riseOf
    omega
  highTime k := by
    unfold riseOf fallOf
    omega
  ordinary k _ := by
    unfold riseOf fallOf
    omega
  indexTooth k hk := by
    unfold riseOf fallOf
    omega

theorem unblocked_wheel : Unblocked wheel 0 :=
  turning_wheel.unblocked (by decide) fun k => by
    unfold fallOf
    omega

theorem virtual_zero_wheel :
    (run wheel 4301).virtualZeroFlag = true ∧ (run wheel 4302).stepCnt.toNat = 0 :=
  ⟨((virtual_zero_of_turn turning_wheel unblocked_wheel).1 4301 (by decide)).mpr ⟨0, by decide⟩,
    (virtual_zero_of_turn turning_wheel unblocked_wheel).2 0 0 (by decide) 4302 (by decide)
      (by decide)⟩

end SingleScan.MotorInfo
