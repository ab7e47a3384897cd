import SingleScan.Lib.Trace
import SingleScan.PosBuffer

/-!
# Whole rotations in the buffer

The flag that lets a rotation in is set or cleared when the module sees the window open, and no word
comes before that. A rotation is not let in over more than 811 words, unless the flag is left over from
the rotation before.
-/

namespace SingleScan.PosBuffer

open Clocked

def run (input : ℕ → Input) (c : ℕ) : State := trace step State.reset input c

/-- How many words have been written before clock `c`. -/
def writtenCount (input : ℕ → Input) (c : ℕ) : ℕ :=
  (logged step State.reset input written 0 c).length

/-- `cycle_enable` one clock ago. -/
def opened (input : ℕ → Input) : ℕ → Bool
  | 0 => false
  | c + 1 => (input c).cycleEnable

/-- The distances of the window that was open one clock ago. -/
def pulses (input : ℕ → Input) : ℕ → ℕ
  | 0 => 0
  | c + 1 =>
    (if (input c).cycleEnable then pulses input c else 0) + (if (input c).targetValid then 1 else 0)

/-- Every window has 811 distances, of which the first comes four clocks behind its begin, and the
windows are four clocks apart. -/
structure Rotations (input : ℕ → Input) : Prop where
  inside : ∀ c, (input c).targetValid = true →
    ∃ a, c = a + 4 ∧ ∀ d ≤ 4, (input (a + d)).cycleEnable = true
  most : ∀ c, pulses input c ≤ 811
  whole : ∀ c, (input c).cycleEnable = true → (input (c + 1)).cycleEnable = false →
    pulses input (c + 1) = 811
  apart : ∀ c, (input c).cycleEnable = true → (input (c + 1)).cycleEnable = false →
    ∀ d < 4, (input (c + 1 + d)).cycleEnable = false

/-- Where a window opens while the upload is disabled, the flag is not left over, or there is room. -/
def Settles (s : State) (i : Input) : Prop :=
  s.cycleEnableRise = true → i.updateEnable = false → s.enableFlag = false ∨ s.fifo.length ≤ 811

section Run

variable {input : ℕ → Input} {c : ℕ}

theorem run_succ (input : ℕ → Input) (c : ℕ) : run input (c + 1) = step (run input c) (input c) := rfl

theorem cycleEnableR_eq (input : ℕ → Input) (c : ℕ) :
    (run input c).cycleEnableR = (opened input (c - 1), opened input c) := by
  match c with
  | 0 => rfl
  | 1 => rfl
  | c + 2 => rfl

theorem writtenCount_succ (input : ℕ → Input) (c : ℕ) :
    writtenCount input (c + 1) =
      writtenCount input c + (written (run input c) (input c)).toList.length := by
  unfold writtenCount run
  rw [logged_succ, List.length_append, Nat.zero_add]

/-- No distance comes while the module has not yet decided. -/
theorem Rotations.quiet (h : Rotations input)
    (hopened : opened input c = false ∨ opened input (c - 1) = false ∨
      (input c).cycleEnable = false) : (input c).targetValid = false := by
  rw [Bool.eq_false_iff]
  intro hvalid
  obtain ⟨a, rfl, hopen⟩ := h.inside c hvalid
  rcases hopened with hnow | hbefore | hnext
  · exact absurd ((hopen 3 (by decide)).symm.trans hnow) (by decide)
  · exact absurd ((hopen 2 (by decide)).symm.trans hbefore) (by decide)
  · exact absurd ((hopen 4 (by decide)).symm.trans hnext) (by decide)

/-- The words so far, and the words to come from the rotation that is let in. -/
structure Whole (input : ℕ → Input) (c : ℕ) (s : State) (count : ℕ) : Prop where
  level : s.fifo.length ≤ 1622
  closed : opened input c = false ∨ opened input (c - 1) = false →
    pulses input c = 0 ∧ 811 ∣ count
  out : opened input c = true → opened input (c - 1) = true → s.enableFlag = false → 811 ∣ count
  inside : opened input c = true → opened input (c - 1) = true → s.enableFlag = true →
    811 ∣ count + (811 - pulses input c) ∧ s.fifo.length + (811 - pulses input c) ≤ 1622

theorem Whole.dvd {s : State} {count : ℕ} (hwhole : Whole input c s count) (h : Rotations input)
    (hlow : (input c).cycleEnable = false) : 811 ∣ count := by
  cases hnow : opened input c with
  | false => exact (hwhole.closed (.inl hnow)).2
  | true =>
      cases hbefore : opened input (c - 1) with
      | false => exact (hwhole.closed (.inr hbefore)).2
      | true =>
          cases hflag : s.enableFlag with
          | false => exact hwhole.out hnow hbefore hflag
          | true =>
              obtain ⟨d, rfl⟩ : ∃ d, c = d + 1 := by
                cases c with
                | zero => exact absurd hnow Bool.false_ne_true
                | succ d => exact ⟨d, rfl⟩
              have hcount := (hwhole.inside hnow hbefore hflag).1
              rw [h.whole d hnow hlow] at hcount
              exact hcount

/-- What a word that is written does to the level and to the count. -/
theorem step_fifo {s : State} (i : Input) (haclr : s.aclr = false) (hlevel : s.fifo.length ≤ 1622) :
    (written s i).toList.length = (if s.enableFlag = true ∧ i.targetValid = true then 1 else 0) ∧
      (step s i).fifo.length ≤
        s.fifo.length + if s.enableFlag = true ∧ i.targetValid = true then 1 else 0 := by
  have hroom : s.fifo.length < fifoNumwords := hlevel.trans_lt (by decide)
  have hwritten : (written s i).toList.length =
      if s.enableFlag = true ∧ i.targetValid = true then 1 else 0 := by
    unfold written
    cases s.enableFlag <;> cases i.targetValid <;> simp [hroom]
  refine ⟨hwritten, ?_⟩
  rw [← hwritten]
  simp only [step, haclr, Bool.false_eq_true, if_false, List.length_append, List.length_drop]
  omega

/-- **The step lemma.** -/
theorem whole_step (h : Rotations input) {count : ℕ} (haclr : (run input c).aclr = false)
    (hsettles : Settles (run input c) (input c)) (hwhole : Whole input c (run input c) count) :
    Whole input (c + 1) (run input (c + 1))
      (count + (written (run input c) (input c)).toList.length) := by
  obtain ⟨hwritten, hlength⟩ := step_fifo (input c) haclr hwhole.level
  have hpulses : pulses input (c + 1) = (if (input c).cycleEnable then pulses input c else 0) +
      (if (input c).targetValid then 1 else 0) := rfl
  have hopened : opened input (c + 1) = (input c).cycleEnable := rfl
  have hback : c + 1 - 1 = c := rfl
  have hlevel := hwhole.level
  rw [← run_succ] at hlength
  rw [hwritten]
  cases hnow : opened input c with
  | false =>
      -- the window is closed
      have hvalid := h.quiet (.inl hnow)
      obtain ⟨hzero, hcount⟩ := hwhole.closed (.inl hnow)
      rw [hvalid] at hlength hpulses ⊢
      simp only [Bool.false_eq_true, and_false, if_false, Nat.add_zero] at hlength hpulses ⊢
      refine ⟨by omega, fun _ => ⟨?_, hcount⟩, ?_, ?_⟩
      · rw [hpulses, hzero, ite_self]
      · rw [hback, hnow]
        exact fun _ hup => absurd hup (by decide)
      · rw [hback, hnow]
        exact fun _ hup => absurd hup (by decide)
  | true =>
      obtain ⟨d, rfl⟩ : ∃ d, c = d + 1 := by
        cases c with
        | zero => exact absurd hnow Bool.false_ne_true
        | succ d => exact ⟨d, rfl⟩
      cases hbefore : opened input (d + 1 - 1) with
      | false =>
          -- the module sees the window open and decides
          have hvalid := h.quiet (.inr (.inl hbefore))
          obtain ⟨hzero, hcount⟩ := hwhole.closed (.inr hbefore)
          have hopen : (input (d + 1)).cycleEnable = true := by
            by_contra hlow
            have := h.whole d hnow (Bool.eq_false_iff.mpr hlow)
            omega
          have hrise : (run input (d + 1)).cycleEnableRise = true := by
            rw [State.cycleEnableRise, cycleEnableR_eq, hnow, hbefore]
            rfl
          have hroom : (run input (d + 1 + 1)).enableFlag = true →
              (run input (d + 1)).fifo.length ≤ 811 := by
            intro hflag
            rw [run_succ] at hflag
            simp only [step, hrise, if_true, hopen] at hflag
            cases hupdate : (input (d + 1)).updateEnable with
            | true =>
                rw [hupdate, if_pos rfl, Bool.or_eq_true, beq_iff_eq, beq_iff_eq,
                  ← BitVec.toNat_inj, ← BitVec.toNat_inj, State.usedw, BitVec.toNat_ofNat,
                  Nat.mod_eq_of_lt (by omega)] at hflag
                have hzero' : (0 : BitVec 11).toNat = 0 := rfl
                have hone : (811 : BitVec 11).toNat = 811 := rfl
                omega
            | false =>
                rw [hupdate, if_neg (by decide)] at hflag
                rcases hsettles hrise hupdate with hclear | hfree
                · exact absurd (hflag.symm.trans hclear) (by decide)
                · exact hfree
          rw [hvalid] at hlength hpulses ⊢
          rw [hopen] at hpulses
          simp only [Bool.false_eq_true, and_false, if_false, if_true, Nat.add_zero] at hlength hpulses ⊢
          rw [hzero] at hpulses
          refine ⟨by omega, fun _ => ⟨hpulses, hcount⟩, fun _ _ _ => hcount, fun _ _ hflag => ?_⟩
          have hfree := hroom hflag
          rw [hpulses]
          omega
      | true =>
          have hrise : (run input (d + 1)).cycleEnableRise = false := by
            rw [State.cycleEnableRise, cycleEnableR_eq, hnow, hbefore]
            rfl
          cases hopen : (input (d + 1)).cycleEnable with
          | false =>
              -- the window closes
              have hvalid := h.quiet (.inr (.inr hopen))
              have hcount := hwhole.dvd h hopen
              rw [hvalid] at hlength hpulses ⊢
              rw [hopen] at hpulses hopened
              simp only [Bool.false_eq_true, and_false, if_false, Nat.add_zero]
                at hlength hpulses ⊢
              refine ⟨by omega, fun _ => ⟨hpulses, hcount⟩, ?_, ?_⟩
              · rw [hopened]
                exact fun hup => absurd hup (by decide)
              · rw [hopened]
                exact fun hup => absurd hup (by decide)
          | true =>
              -- inside the window the flag stands
              have hflag : (run input (d + 1 + 1)).enableFlag = (run input (d + 1)).enableFlag := by
                rw [run_succ]
                simp [step, hrise, hopen]
              have hmost := h.most (d + 1 + 1)
              rw [hopen] at hpulses
              simp only [if_true] at hpulses
              have hnot : ¬ (opened input (d + 1 + 1) = false ∨
                  opened input (d + 1 + 1 - 1) = false) := by
                rw [hopened, hopen, hback, hnow]
                decide
              cases hon : (run input (d + 1)).enableFlag with
              | false =>
                  have hcount := hwhole.out hnow hbefore hon
                  rw [hon] at hlength
                  simp only [Bool.false_eq_true, false_and, if_false, Nat.add_zero] at hlength ⊢
                  refine ⟨by omega, fun hclosed => absurd hclosed hnot, fun _ _ _ => hcount,
                    fun _ _ hup => ?_⟩
                  rw [hflag, hon] at hup
                  exact absurd hup (by decide)
              | true =>
                  obtain ⟨hcount, hroom⟩ := hwhole.inside hnow hbefore hon
                  rw [hon] at hlength
                  rw [hpulses] at hmost
                  have hdown : ¬ (run input (d + 1 + 1)).enableFlag = false := by
                    rw [hflag, hon]
                    decide
                  cases hvalid : (input (d + 1)).targetValid with
                  | false =>
                      rw [hvalid] at hlength hpulses
                      simp only [Bool.false_eq_true, and_false, if_false, Nat.add_zero]
                        at hlength hpulses ⊢
                      refine ⟨by omega, fun hclosed => absurd hclosed hnot,
                        fun _ _ hup => absurd hup hdown, fun _ _ _ => ?_⟩
                      rw [hpulses]
                      exact ⟨hcount, by omega⟩
                  | true =>
                      rw [hvalid] at hlength hpulses hmost
                      simp only [and_self, if_true] at hlength hpulses hmost ⊢
                      refine ⟨by omega, fun hclosed => absurd hclosed hnot,
                        fun _ _ hup => absurd hup hdown, fun _ _ _ => ?_⟩
                      rw [hpulses]
                      omega

theorem whole_run (h : Rotations input) {c : ℕ} (haclr : ∀ d < c, (run input d).aclr = false)
    (hsettles : ∀ d < c, Settles (run input d) (input d)) :
    Whole input c (run input c) (writtenCount input c) := by
  induction c with
  | zero =>
      exact ⟨Nat.zero_le _, fun _ => ⟨rfl, 0, rfl⟩, fun hup => absurd hup Bool.false_ne_true,
        fun hup => absurd hup Bool.false_ne_true⟩
  | succ c ih =>
      rw [writtenCount_succ]
      exact whole_step h (haclr c (Nat.lt_succ_self c)) (hsettles c (Nat.lt_succ_self c))
        (ih (fun d hd => haclr d (by omega)) fun d hd => hsettles d (by omega))

/-- **Whole rotations.** Without a flag that is left over, what has been written while the window is
closed are whole rotations, and the FIFO holds two of them at most. -/
theorem whole_rotations (h : Rotations input) {c : ℕ} (haclr : ∀ d < c, (run input d).aclr = false)
    (hsettles : ∀ d < c, Settles (run input d) (input d)) :
    ((input c).cycleEnable = false → 811 ∣ writtenCount input c) ∧
      (run input c).fifo.length ≤ 1622 := by
  have hwhole := whole_run h haclr hsettles
  exact ⟨hwhole.dvd h, hwhole.level⟩

/-- The timer has not counted more clocks than there were. -/
theorem timeOutCnt_le (input : ℕ → Input) (c : ℕ) : (run input c).timeOutCnt.toNat ≤ c := by
  induction c with
  | zero => exact Nat.zero_le _
  | succ c ih =>
      have hone : (1 : BitVec 32).toNat = 1 := rfl
      have hzero : (0 : BitVec 32).toNat = 0 := rfl
      rw [run_succ]
      simp only [step]
      split_ifs
      · omega
      · omega
      · rw [BitVec.toNat_add, hone]
        omega
      · omega

theorem aclr_of_lt (input : ℕ → Input) {c : ℕ} (hc : c < time100ms) :
    (run input c).aclr = false := by
  have hle := timeOutCnt_le input c
  rw [State.aclr, beq_eq_false_iff_ne]
  omega

end Run

/-- Rotations of 819 clocks, that nobody reads; the upload is enabled but in one clock. -/
def turns (gap : ℕ) (c : ℕ) : Input where
  updateEnable := c ≠ gap
  cycleEnable := 4 ≤ c % 819
  targetValid := 8 ≤ c % 819
  targetPos := 0
  targetGray := 0
  reads := 0

theorem pulses_turns (gap c : ℕ) :
    pulses (turns gap) c = if c % 819 = 0 ∧ 0 < c then 811 else c % 819 - 8 := by
  induction c with
  | zero => rfl
  | succ c ih =>
      simp only [pulses, turns, decide_eq_true_eq, ih]
      split_ifs <;> omega

theorem rotations_turns (gap : ℕ) : Rotations (turns gap) where
  inside c hvalid := by
    simp only [turns, decide_eq_true_eq] at hvalid ⊢
    exact ⟨c - 4, by omega, fun d hd => by omega⟩
  most c := by
    rw [pulses_turns]
    split <;> omega
  whole c hup hdown := by
    simp only [turns, decide_eq_true_eq, decide_eq_false_iff_not] at hup hdown
    rw [pulses_turns, if_pos (by omega)]
  apart c hup hdown d hd := by
    simp only [turns, decide_eq_true_eq, decide_eq_false_iff_not] at hup hdown ⊢
    omega

theorem whole_rotations_turns : 811 ∣ writtenCount (turns 0) 819 :=
  (whole_rotations (rotations_turns 0) (c := 819)
    (fun d hd => aclr_of_lt _ (hd.trans (by decide)))
    (fun d _ hrise hlow => by
      -- the only clock without upload is the first one
      have hzero : d = 0 := by simpa [turns] using hlow
      rw [hzero] at hrise
      exact absurd hrise (by decide))).1 (by decide)

/-- Two rotations are in the FIFO, and the upload is disabled just where the third one begins. -/
theorem run_turns {c : ℕ} (hc : c ≤ 1647) :
    (run (turns 1643) c).enableFlag = decide (6 ≤ c) ∧
      (run (turns 1643) c).fifo.length = 811 * (c / 819) + (c % 819 - 8) := by
  induction c with
  | zero => exact ⟨rfl, rfl⟩
  | succ c ih =>
      obtain ⟨hflag, hlength⟩ := ih (by omega)
      have hopened (d : ℕ) : opened (turns 1643) d = decide (0 < d ∧ 4 ≤ (d - 1) % 819) := by
        cases d with
        | zero => rfl
        | succ d => simp [opened, turns]
      have hrise : (run (turns 1643) c).cycleEnableRise = decide (c % 819 = 5) := by
        rw [State.cycleEnableRise, cycleEnableR_eq, hopened, hopened, Bool.eq_iff_iff, beq_iff_eq,
          Prod.mk.injEq, decide_eq_false_iff_not, decide_eq_true_eq, decide_eq_true_eq]
        omega
      have haclr := aclr_of_lt (turns 1643) (show c < time100ms from lt_of_lt_of_le hc (by decide))
      have hsmall : (run (turns 1643) c).fifo.length < fifoNumwords := by
        have : fifoNumwords = 2048 := rfl
        omega
      constructor
      · have hused : (run (turns 1643) c).usedw = BitVec.ofNat 11 (811 * (c / 819) + (c % 819 - 8)) := by
          rw [State.usedw, hlength]
        rw [run_succ]
        simp only [step, hrise, hused, hflag, decide_eq_true_eq]
        by_cases hdecide : c % 819 = 5
        · obtain rfl | rfl | rfl : c = 5 ∨ c = 824 ∨ c = 1643 := by omega
          all_goals rfl
        · rw [if_neg hdecide]
          have hsix : decide (6 ≤ c) = decide (6 ≤ c + 1) := decide_eq_decide.mpr (by omega)
          have hgap : c ≠ 1643 := fun heq => hdecide (by rw [heq])
          rw [hsix, turns, if_pos (decide_eq_true hgap)]
      · have hwritten : (written (run (turns 1643) c) (turns 1643 c)).toList.length =
            if 6 ≤ c ∧ 8 ≤ c % 819 then 1 else 0 := by
          rw [(step_fifo _ haclr (by omega)).1, hflag]
          simp only [turns, decide_eq_true_eq]
        rw [run_succ]
        simp only [step, haclr, Bool.false_eq_true, if_false, List.length_append, List.length_drop,
          hlength, hwritten]
        have hreads : (turns 1643 c).reads = 0 := rfl
        rw [hreads]
        split <;> omega

theorem not_whole_rotations :
    ¬ ∀ (input : ℕ → Input) (c : ℕ), Rotations input → (∀ d < c, (run input d).aclr = false) →
      ((input c).cycleEnable = false → 811 ∣ writtenCount input c) ∧
        (run input c).fifo.length ≤ 1622 := by
  intro h
  have hlevel := (h (turns 1643) 1647 (rotations_turns 1643)
    fun d hd => aclr_of_lt _ (hd.trans (by decide))).2
  rw [(run_turns (c := 1647) le_rfl).2] at hlevel
  exact absurd hlevel (by decide)


end SingleScan.PosBuffer
