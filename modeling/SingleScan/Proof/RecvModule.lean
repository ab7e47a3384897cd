import Mathlib.Order.Monotone.Basic
import SingleScan.Proof.FinalDistance
import SingleScan.RecvModule

/-!
# The points of a shot reach the serializer in the order of their capture

A shot is described by its clock: `recv_en` comes two clocks and `DELAY_CNT` behind it, the 25 words
follow, and `tola_en` comes with the 27th clock. The counter of the words never stops, so that in a
pause of `2 ^ 32` clocks it captures again and announces words that belong to no shot.
-/

namespace SingleScan

open Clocked

/-- Every clock lies up to the first event or between two neighbouring ones. -/
theorem exists_interval {t : ℕ → ℕ} (hmono : StrictMono t) (c : ℕ) :
    c ≤ t 0 ∨ ∃ n, t n < c ∧ c ≤ t (n + 1) := by
  induction c with
  | zero => exact .inl (Nat.zero_le _)
  | succ c ih =>
      rcases ih with hfirst | ⟨n, hlo, hhi⟩
      · rcases Nat.lt_or_eq_of_le hfirst with hlt | rfl
        · exact .inl hlt
        · exact .inr ⟨0, Nat.lt_succ_self _, hmono (Nat.lt_succ_self 0)⟩
      · rcases Nat.lt_or_eq_of_le hhi with hlt | rfl
        · exact .inr ⟨n, Nat.lt_succ_of_lt hlo, hlt⟩
        · exact .inr ⟨n + 1, Nat.lt_succ_self _, hmono (Nat.lt_succ_self (n + 1))⟩

namespace RecvModule

/-- The laser is enabled, the shots come at the clocks `t 0`, `t 1`, …, and the capture of a shot ends
before the next one. -/
structure Shooting (delay : BitVec 8) (t : ℕ → ℕ) (input : ℕ → Input) : Prop where
  apart : ∀ n, t n + 123 ≤ t (n + 1)
  fits : ∀ n, t n + delay.toNat + 28 ≤ t (n + 1)
  sendEn : ∀ c, (input c).sendEn = true ↔ ∃ n, c = t n
  laserEnable : ∀ c, (input c).laserEnable = true
  delayCnt : ∀ c, (input c).delayCnt = delay

/-! ### The wait behind a shot -/

/-- No shot is waiting. -/
def Idle (s : State) : Prop := s.state = 0 ∧ s.recvEn = false

/-- The last shot was `e` clocks ago. -/
structure At (delay : BitVec 8) (e : ℕ) (s : State) : Prop where
  waiting : e ≤ delay.toNat + 1 → s.state = 1 ∧ s.cnt.toNat + 1 = e ∧ s.recvEn = false
  recvEn : e = delay.toNat + 2 → s.state = 2 ∧ s.recvEn = true
  idle : delay.toNat + 3 ≤ e → Idle s

variable {delay : BitVec 8} {t : ℕ → ℕ} {input : ℕ → Input} {e : ℕ} {s : State} {i : Input}

theorem Idle.quiet (h : Idle s) (hquiet : i.sendEn = false) : Idle (step s i) := by
  obtain ⟨hstate, -⟩ := h
  simp [Idle, step, delayStep, hstate, hquiet]

theorem Idle.shot (h : Idle s) (hshot : i.sendEn = true) : At delay 1 (step s i) := by
  obtain ⟨hstate, -⟩ := h
  constructor
  · intro _
    simp [step, delayStep, hstate, hshot]
  · intro he
    omega
  · intro he
    omega

theorem At.next (h : At delay e s) (hpos : 1 ≤ e) (hquiet : i.sendEn = false)
    (hlaser : i.laserEnable = true) (hdelay : i.delayCnt = delay) : At delay (e + 1) (step s i) := by
  have hwide := delay.isLt
  rcases Nat.lt_trichotomy e (delay.toNat + 2) with hwait | rfl | hidle
  · obtain ⟨hstate, hcnt, hlow⟩ := h.waiting (by omega)
    by_cases hmore : s.cnt.toNat < delay.toNat
    · have hstep : delayStep s i = { s with cnt := s.cnt + 1 } := by
        simp [delayStep, hstate, hdelay, hmore]
      have hnext : (s.cnt + 1).toNat = s.cnt.toNat + 1 := by
        rw [BitVec.toNat_add]
        exact Nat.mod_eq_of_lt (by simp; omega)
      constructor
      · intro _
        simp only [step, hstep, hnext, hcnt, hstate, hlow, and_self]
      · intro he
        omega
      · intro he
        omega
    · constructor
      · intro he
        omega
      · intro _
        simp [step, delayStep, hstate, hdelay, hmore, hlaser]
      · intro he
        omega
  · obtain ⟨hstate, -⟩ := h.recvEn rfl
    constructor
    · intro he
      omega
    · intro he
      omega
    · intro _
      simp [Idle, step, delayStep, hstate]
  · constructor
    · intro he
      omega
    · intro he
      omega
    · exact fun _ => (h.idle hidle).quiet hquiet

theorem step_totalData1_of_few (hfew : s.cnt1.toNat < 25) :
    (step s i).totalData1 = i.rxDataout ++ s.totalData1.extractLsb' 16 384 := if_pos hfew

theorem step_totalData1_of_all (hall : 25 ≤ s.cnt1.toNat) : (step s i).totalData1 = s.totalData1 :=
  if_neg (Nat.not_lt.2 hall)

theorem step_totalData_of_all (hall : 25 ≤ s.cnt1.toNat) : (step s i).totalData = s.totalData1 :=
  if_neg (Nat.not_lt.2 hall)

/-- The state of the receiver at a clock. -/
def run (input : ℕ → Input) (c : ℕ) : State := trace step .reset input c

theorem run_succ (c : ℕ) : run input (c + 1) = step (run input c) (input c) := rfl

/-- `recv_en` of shot `n`. -/
def recvAt (delay : BitVec 8) (t : ℕ → ℕ) (n : ℕ) : ℕ := t n + delay.toNat + 2

section Shots

variable (h : Shooting delay t input)

include h

theorem Shooting.strictMono : StrictMono t := strictMono_nat_of_lt_succ fun n => by
  have := h.apart n
  omega

theorem Shooting.quiet {n c : ℕ} (hlo : t n < c) (hhi : c < t (n + 1)) :
    (input c).sendEn = false := by
  rw [Bool.eq_false_iff, Ne, h.sendEn]
  rintro ⟨m, rfl⟩
  exact h.strictMono.monotone.ne_of_lt_of_lt_nat n hlo hhi m rfl

theorem Shooting.before {c : ℕ} (hc : c < t 0) : (input c).sendEn = false := by
  rw [Bool.eq_false_iff, Ne, h.sendEn]
  rintro ⟨m, rfl⟩
  exact absurd (h.strictMono.monotone (Nat.zero_le m)) (Nat.not_le.2 hc)

theorem idle_before {c : ℕ} (hc : c ≤ t 0) : Idle (run input c) :=
  trace_induction (fun _ s => Idle s) ⟨rfl, rfl⟩
    (fun _ hlt hidle => hidle.quiet (h.before hlt)) c hc

theorem at_of_idle {n : ℕ} (hidle : Idle (run input (t n))) (e : ℕ)
    (he : t n + (e + 1) ≤ t (n + 1)) : At delay (e + 1) (run input (t n + (e + 1))) := by
  induction e with
  | zero => exact hidle.shot ((h.sendEn _).2 ⟨n, rfl⟩)
  | succ e ih =>
      have hquiet : (input (t n + (e + 1))).sendEn = false :=
        h.quiet (n := n) (by omega) (by omega)
      exact (ih (by omega)).next (by omega) hquiet (h.laserEnable _) (h.delayCnt _)

theorem idle_shot (n : ℕ) : Idle (run input (t n)) := by
  induction n with
  | zero => exact idle_before h le_rfl
  | succ n ih =>
      have hfits := h.fits n
      obtain ⟨e, he⟩ : ∃ e, t (n + 1) = t n + (e + 1) := ⟨t (n + 1) - t n - 1, by omega⟩
      have hat := at_of_idle h ih e (by omega)
      rw [← he] at hat
      exact hat.idle (by omega)

/-- **The wait.** -/
theorem at_run (n : ℕ) {e : ℕ} (hpos : 1 ≤ e) (he : t n + e ≤ t (n + 1)) :
    At delay e (run input (t n + e)) := by
  obtain ⟨e, rfl⟩ : ∃ e', e = e' + 1 := ⟨e - 1, by omega⟩
  exact at_of_idle h (idle_shot h n) e he

theorem recvEn_up (n : ℕ) : (run input (recvAt delay t n)).recvEn = true := by
  have hfits := h.fits n
  exact ((at_run h n (e := delay.toNat + 2) (by omega) (by omega)).recvEn rfl).2

theorem recvEn_low (n : ℕ) {c : ℕ} (hlo : recvAt delay t n < c) (hhi : c < recvAt delay t (n + 1)) :
    (run input c).recvEn = false := by
  unfold recvAt at hlo hhi
  rcases Nat.lt_or_ge (t (n + 1)) c with hafter | hbefore
  · have hfits := h.fits (n + 1)
    obtain ⟨e, rfl⟩ : ∃ e, c = t (n + 1) + e := ⟨c - t (n + 1), by omega⟩
    exact ((at_run h (n + 1) (by omega) (by omega)).waiting (by omega)).2.2
  · obtain ⟨e, rfl⟩ : ∃ e, c = t n + e := ⟨c - t n, by omega⟩
    exact ((at_run h n (by omega) hbefore).idle (by omega)).2

/-! ### The words of a shot -/

theorem cnt1_run (n i : ℕ) (hi : recvAt delay t n + 1 + i ≤ recvAt delay t (n + 1)) :
    (run input (recvAt delay t n + 1 + i)).cnt1.toNat = i % 2 ^ 32 := by
  induction i with
  | zero =>
      rw [Nat.add_zero, run_succ]
      simp [step, recvEn_up h n]
  | succ i ih =>
      have hlow := recvEn_low h n (c := recvAt delay t n + 1 + i) (by omega) (by omega)
      have hstep : (run input (recvAt delay t n + 1 + (i + 1))).cnt1 =
          (run input (recvAt delay t n + 1 + i)).cnt1 + 1 := by
        rw [← Nat.add_assoc, run_succ]
        simp [step, hlow]
      rw [hstep, BitVec.toNat_add, ih (by omega)]
      simp

/-- The words captured so far, the last one in the highest bits. -/
theorem words_run (n i : ℕ) (hi : i ≤ 25) (j b : ℕ) (hj : j < i) (hb : b < 16) :
    (run input (recvAt delay t n + 1 + i)).totalData1.getLsbD (400 - 16 * i + 16 * j + b) =
      (input (recvAt delay t n + 1 + j)).rxDataout.getLsbD b := by
  have hnext := h.apart n
  induction i generalizing j b with
  | zero => omega
  | succ i ih =>
      have hcnt := cnt1_run h n i (by unfold recvAt; omega)
      have hstep : (run input (recvAt delay t n + 1 + (i + 1))).totalData1 =
          (input (recvAt delay t n + 1 + i)).rxDataout ++
            (run input (recvAt delay t n + 1 + i)).totalData1.extractLsb' 16 384 := by
        rw [← Nat.add_assoc, run_succ, step_totalData1_of_few (by omega)]
      rw [hstep, BitVec.getLsbD_append, BitVec.getLsbD_extractLsb']
      rcases Nat.lt_or_eq_of_le (Nat.le_of_lt_succ hj) with hold | rfl
      · have hplace : 16 + (400 - 16 * (i + 1) + 16 * j + b) = 400 - 16 * i + 16 * j + b := by omega
        rw [if_pos (by omega), hplace, ih (by omega) j b hold hb, decide_eq_true (by omega),
          Bool.true_and]
      · have hplace : 400 - 16 * (j + 1) + 16 * j + b - 384 = b := by omega
        rw [if_neg (by omega), hplace]

theorem totalData1_run (n i : ℕ) (hi : i ≤ 2) :
    (run input (recvAt delay t n + 26 + i)).totalData1 =
      (run input (recvAt delay t n + 26)).totalData1 := by
  have hnext := h.apart n
  induction i with
  | zero => rfl
  | succ i ih =>
      have hcnt := cnt1_run h n (25 + i) (by unfold recvAt; omega)
      have hclock : recvAt delay t n + 1 + (25 + i) = recvAt delay t n + 26 + i := by omega
      rw [hclock] at hcnt
      rw [← ih (by omega), ← Nat.add_assoc, run_succ, step_totalData1_of_all (by omega)]

/-- **The points of a shot**, on the clock on which `final_diatance` takes them over. -/
theorem totalData_run (n : ℕ) {p : ℕ} (hp : p < 400) :
    (run input (recvAt delay t n + 28)).totalData.getLsbD p =
      (input (recvAt delay t n + 1 + p / 16)).rxDataout.getLsbD (p % 16) := by
  have hnext := h.apart n
  have hcnt := cnt1_run h n 26 (by unfold recvAt; omega)
  have hclock : recvAt delay t n + 1 + 26 = recvAt delay t n + 27 := by omega
  rw [hclock] at hcnt
  have hstep : (run input (recvAt delay t n + 28)).totalData =
      (run input (recvAt delay t n + 27)).totalData1 := by
    rw [run_succ, step_totalData_of_all (by omega)]
  have hwords := words_run h n 25 le_rfl (p / 16) (p % 16) (by omega) (by omega)
  have hplace : 400 - 16 * 25 + 16 * (p / 16) + p % 16 = p := by omega
  rw [hplace] at hwords
  rw [hstep, totalData1_run h n 1 (by decide)]
  exact hwords

/-! ### The strobe -/

theorem armed_run (n i : ℕ) (hi : recvAt delay t n + 1 + i ≤ t (n + 1)) :
    (run input (recvAt delay t n + 1 + i)).tolaEnState = 1 := by
  induction i with
  | zero =>
      rw [Nat.add_zero, run_succ]
      exact if_pos (recvEn_up h n)
  | succ i ih =>
      have hlow := recvEn_low h n (c := recvAt delay t n + 1 + i) (by omega)
        (by unfold recvAt at hi ⊢; omega)
      have hquiet : (input (recvAt delay t n + 1 + i)).sendEn = false :=
        h.quiet (n := n) (by unfold recvAt; omega) (by omega)
      rw [← Nat.add_assoc, run_succ, ← ih (by omega)]
      simp [step, hlow, hquiet]

omit h in
theorem step_disarmed (hlow : s.recvEn = false) (hdisarmed : s.tolaEnState = 0) :
    (step s i).tolaEnState = 0 := by
  simp [step, hlow, hdisarmed]

theorem disarmed_run (n e : ℕ) (he : t n + (e + 1) ≤ recvAt delay t n) :
    (run input (t n + (e + 1))).tolaEnState = 0 := by
  have hfits := h.fits n
  unfold recvAt at he
  induction e with
  | zero =>
      have hshot := (h.sendEn (t n)).2 ⟨n, rfl⟩
      rw [Nat.zero_add, run_succ]
      simp [step, (idle_shot h n).2, hshot]
  | succ e ih =>
      have hat := at_run h n (e := e + 1) (by omega) (by omega)
      rw [← Nat.add_assoc, run_succ]
      exact step_disarmed (hat.waiting (by omega)).2.2 (ih (by omega))

theorem disarmed_before {c : ℕ} (hc : c ≤ t 0) : (run input c).tolaEnState = 0 := by
  induction c with
  | zero => rfl
  | succ c ih => exact step_disarmed (idle_before h (by omega)).2 (ih (by omega))

/-- **The strobe** comes whenever the counter of the words shows 25 before the next shot. -/
theorem tolaEn_iff (c : ℕ) :
    (run input (c + 1)).tolaEn = true ↔
      ∃ n, recvAt delay t n < c ∧ c ≤ t (n + 1) ∧ (c - recvAt delay t n - 1) % 2 ^ 32 = 25 := by
  have hstep : (run input (c + 1)).tolaEn = true ↔
      (run input c).tolaEnState = 1 ∧ (run input c).cnt1.toNat = 25 := by
    have hcnt : (run input c).cnt1 = 25 ↔ (run input c).cnt1.toNat = 25 := by
      rw [← BitVec.toNat_inj]
      rfl
    rw [run_succ, ← hcnt]
    simp only [step, Bool.and_eq_true, beq_iff_eq]
  have hlow (hdisarmed : (run input c).tolaEnState = 0) : ¬ (run input (c + 1)).tolaEn = true := by
    rw [hstep, hdisarmed]
    exact fun h => absurd h.1 (by decide)
  have hrecv (n : ℕ) : recvAt delay t n = t n + delay.toNat + 2 := rfl
  rcases exists_interval h.strictMono c with hfirst | ⟨n, hlo, hhi⟩
  · refine iff_of_false (hlow (disarmed_before h hfirst)) ?_
    rintro ⟨n, hn, -⟩
    have hmono := h.strictMono.monotone (Nat.zero_le n)
    have := hrecv n
    omega
  · have honly (m : ℕ) (hm : recvAt delay t m < c) (hm' : c ≤ t (m + 1)) : m = n := by
      have h1 : m < n + 1 := h.strictMono.lt_iff_lt.1 (by have := hrecv m; omega)
      have h2 : n < m + 1 := h.strictMono.lt_iff_lt.1 (by omega)
      omega
    rcases Nat.lt_or_ge (recvAt delay t n) c with harmed | hwaiting
    · obtain ⟨i, rfl⟩ : ∃ i, c = recvAt delay t n + 1 + i := ⟨c - recvAt delay t n - 1, by omega⟩
      have hnext := hrecv (n + 1)
      rw [hstep, armed_run h n i hhi, cnt1_run h n i (by omega)]
      constructor
      · rintro ⟨-, hi⟩
        refine ⟨n, harmed, hhi, ?_⟩
        rwa [Nat.add_assoc, Nat.add_sub_cancel_left, Nat.add_sub_cancel_left]
      · rintro ⟨m, hm, hm', hi⟩
        rw [honly m hm hm', Nat.add_assoc, Nat.add_sub_cancel_left, Nat.add_sub_cancel_left] at hi
        exact ⟨rfl, hi⟩
    · obtain ⟨e, rfl⟩ : ∃ e, c = t n + (e + 1) := ⟨c - t n - 1, by omega⟩
      refine iff_of_false (hlow (disarmed_run h n e hwaiting)) ?_
      rintro ⟨m, hm, hm', -⟩
      rw [honly m hm hm'] at hm
      omega

theorem tolaEn_up (n : ℕ) : (run input (recvAt delay t n + 27)).tolaEn = true := by
  have hfits := h.fits n
  refine (tolaEn_iff h (recvAt delay t n + 26)).2 ⟨n, by omega, by unfold recvAt; omega, ?_⟩
  have hclock : recvAt delay t n + 26 - recvAt delay t n - 1 = 25 := by omega
  have hsmall : 25 % 2 ^ 32 = 25 := rfl
  rw [hclock, hsmall]

end Shots

end RecvModule

namespace Capture

open RecvModule (Shooting recvAt)
open FinalDiatance (Strobed channelOf)

variable {delay : BitVec 8} {t : ℕ → ℕ} {input : ℕ → Input}

/-- The state of the two stages at a clock. -/
def run (s : State) (input : ℕ → Input) (c : ℕ) : State := trace step s.reset input c

/-- What `final_diatance` sees. -/
def finalInputs (s : State) (input : ℕ → Input) (c : ℕ) : FinalDiatance.Input :=
  (run s input c).finalInput (input c)

theorem run_recv (s : State) (input : ℕ → Input) (c : ℕ) :
    (run s input c).recv = RecvModule.run (fun c => (input c).recv) c := by
  unfold run RecvModule.run
  exact trace_component State.recv (fun _ (i : Input) => i.recv) (fun _ _ => rfl) c

theorem run_final (s : State) (input : ℕ → Input) (c : ℕ) :
    (run s input c).final = trace FinalDiatance.step s.final.reset (finalInputs s input) c := by
  unfold finalInputs run
  exact trace_component State.final State.finalInput (fun _ _ => rfl) c

theorem finalInputs_tolaEn (s : State) (input : ℕ → Input) (c : ℕ) :
    (finalInputs s input c).tolaEn = (RecvModule.run (fun c => (input c).recv) c).tolaEn := by
  rw [finalInputs, State.finalInput, run_recv]

theorem finalInputs_totalData (s : State) (input : ℕ → Input) (c : ℕ) :
    (finalInputs s input c).totalData = (RecvModule.run (fun c => (input c).recv) c).totalData := by
  rw [finalInputs, State.finalInput, run_recv]

/-- While `data_en` of a serializer is high, it emits the 400 bits of the 25 words that were captured
behind `recv_en`, the first word first and its lowest bit first, and `data_en` is high only then. -/
structure Serialized (delay : BitVec 8) (t : ℕ → ℕ) (s : State) (input : ℕ → Input) : Prop where
  frames : ∀ c k, ((run s input c).final.channel k).serial.dataEn = true ↔
    ∃ n j, j < 400 ∧ c = t n + delay.toNat + 33 + j ∧ k = channelOf n
  bits : ∀ n j, j < 400 →
    ((run s input (t n + delay.toNat + 33 + j)).final.channel (channelOf n)).serial.serialData =
      (input (t n + delay.toNat + 3 + j / 16)).recv.rxDataout.getLsbD (j % 16)

/-- No pause is so long that the counter of the words comes round. -/
def Brief (delay : BitVec 8) (t : ℕ → ℕ) : Prop :=
  ∀ n, t (n + 1) ≤ t n + delay.toNat + 27 + 2 ^ 32

theorem strobed_of_brief (h : Shooting delay t fun c => (input c).recv) (hbrief : Brief delay t)
    (s : State) (stop : ℕ) :
    Strobed (fun n => recvAt delay t n + 27) (finalInputs s input) stop where
  apart := by
    intro n
    have hapart := h.apart n
    unfold recvAt
    omega
  tolaEn := by
    intro c _
    rw [finalInputs_tolaEn]
    constructor
    · intro hstrobe
      cases c with
      | zero => cases hstrobe
      | succ c =>
          obtain ⟨n, hlo, hhi, hcnt⟩ := (RecvModule.tolaEn_iff h c).1 hstrobe
          have hpause := hbrief n
          refine ⟨n, ?_⟩
          unfold recvAt at *
          omega
    · rintro ⟨n, rfl⟩
      exact RecvModule.tolaEn_up h n

/-- **The capture order**, as long as the pauses are brief. -/
theorem serialized_of_brief (h : Shooting delay t fun c => (input c).recv) (hbrief : Brief delay t)
    (s : State) : Serialized delay t s input := by
  have hclock (n : ℕ) : recvAt delay t n + 27 + 4 = t n + delay.toNat + 33 := by
    unfold recvAt
    omega
  constructor
  · intro c k
    rw [run_final, FinalDiatance.dataEn_iff (strobed_of_brief h hbrief s c) s.final le_rfl k]
    simp only [hclock]
  · intro n j hj
    obtain ⟨-, hbit⟩ := FinalDiatance.serialData_of_shot
      (strobed_of_brief h hbrief s (recvAt delay t n + 27 + 4 + j)) s.final n hj le_rfl
    rw [finalInputs_totalData, RecvModule.totalData_run h n hj, hclock, ← run_final] at hbit
    have hword : recvAt delay t n + 1 + j / 16 = t n + delay.toNat + 3 + j / 16 := by
      unfold recvAt
      omega
    rw [hbit, hword]

/-! ### A long pause -/

/-- The strobes up to the one behind the first long pause, that of shot `n`. -/
def strobesUntil (delay : BitVec 8) (t : ℕ → ℕ) (n m : ℕ) : ℕ :=
  if m ≤ n then recvAt delay t m + 27
  else recvAt delay t n + 27 + 2 ^ 32 + 123 * (m - (n + 1))

theorem strobesUntil_last (delay : BitVec 8) (t : ℕ → ℕ) (n : ℕ) :
    strobesUntil delay t n (n + 1) = recvAt delay t n + 27 + 2 ^ 32 + 123 * (n + 1 - (n + 1)) :=
  if_neg (Nat.not_le.2 (Nat.lt_succ_self n))

theorem strobed_until (h : Shooting delay t fun c => (input c).recv) {n : ℕ}
    (hbrief : ∀ m < n, t (m + 1) ≤ t m + delay.toNat + 27 + 2 ^ 32)
    (hlong : t n + delay.toNat + 27 + 2 ^ 32 < t (n + 1)) (s : State) :
    Strobed (strobesUntil delay t n) (finalInputs s input) (recvAt delay t n + 32 + 2 ^ 32) where
  apart := by
    intro m
    have hapart := h.apart m
    unfold strobesUntil recvAt
    rcases Nat.lt_trichotomy m n with hlt | rfl | hgt
    · rw [if_pos hlt.le, if_pos (Nat.succ_le_of_lt hlt)]
      omega
    · rw [if_pos le_rfl, if_neg (by omega)]
      omega
    · rw [if_neg (by omega), if_neg (by omega)]
      omega
  tolaEn := by
    intro c hc
    have hrecv (m : ℕ) : recvAt delay t m = t m + delay.toNat + 2 := rfl
    have hn := hrecv n
    rw [finalInputs_tolaEn]
    constructor
    · intro hstrobe
      cases c with
      | zero => cases hstrobe
      | succ c =>
          obtain ⟨m, hlo, hhi, hcnt⟩ := (RecvModule.tolaEn_iff h c).1 hstrobe
          have hm := hrecv m
          rcases Nat.lt_trichotomy m n with hlt | rfl | hgt
          · have hpause := hbrief m hlt
            refine ⟨m, ?_⟩
            rw [strobesUntil, if_pos hlt.le]
            omega
          · by_cases hfirst : c - recvAt delay t m - 1 < 2 ^ 32
            · refine ⟨m, ?_⟩
              rw [strobesUntil, if_pos le_rfl]
              omega
            · refine ⟨m + 1, ?_⟩
              rw [strobesUntil, if_neg (by omega)]
              omega
          · have hmono : t (n + 1) ≤ t m := h.strictMono.monotone hgt
            omega
    · rintro ⟨m, rfl⟩
      rcases Nat.lt_trichotomy m (n + 1) with hlt | rfl | hgt
      · rw [strobesUntil, if_pos (Nat.le_of_lt_succ hlt)]
        exact RecvModule.tolaEn_up h m
      · obtain ⟨c, hlast⟩ : ∃ c, strobesUntil delay t n (n + 1) = c + 1 :=
          ⟨recvAt delay t n + 26 + 2 ^ 32, by have := strobesUntil_last delay t n; omega⟩
        have hvalue := strobesUntil_last delay t n
        rw [hlast] at hvalue ⊢
        exact (RecvModule.tolaEn_iff h c).2 ⟨n, by omega, by omega, by omega⟩
      · rw [strobesUntil, if_neg (by omega)] at hc
        omega

/-- Behind the first long pause a serializer emits words of no shot. -/
theorem not_serialized_of_long (h : Shooting delay t fun c => (input c).recv) {n : ℕ}
    (hbrief : ∀ m < n, t (m + 1) ≤ t m + delay.toNat + 27 + 2 ^ 32)
    (hlong : t n + delay.toNat + 27 + 2 ^ 32 < t (n + 1)) (s : State) :
    ¬ Serialized delay t s input := by
  intro hserial
  have hstrobed := strobed_until h hbrief hlong s
  have hlast := strobesUntil_last delay t n
  have hup := (FinalDiatance.dataEn_iff hstrobed s.final (c := recvAt delay t n + 31 + 2 ^ 32)
    (by omega) (channelOf (n + 1))).2 ⟨n + 1, 0, by decide, by omega, rfl⟩
  rw [← run_final, hserial.frames] at hup
  obtain ⟨m, j, hj, hm, -⟩ := hup
  unfold recvAt at hm
  rcases Nat.lt_or_ge n m with hgt | hle
  · have hmono : t (n + 1) ≤ t m := h.strictMono.monotone hgt
    omega
  · have hmono : t m ≤ t n := h.strictMono.monotone hle
    omega

theorem exists_shooting (hapart : ∀ n, t n + 123 ≤ t (n + 1))
    (hfits : ∀ n, t n + delay.toNat + 28 ≤ t (n + 1)) :
    ∃ input : ℕ → Input, Shooting delay t fun c => (input c).recv := by
  classical
  exact ⟨fun c => ⟨⟨decide (∃ n, c = t n), true, 0, delay⟩, fun _ => ⟨false, 0, 0⟩⟩,
    hapart, hfits, fun c => decide_eq_true_iff, fun _ => rfl, fun _ => rfl⟩

/-- **The capture order.** For shots at the clocks `t 0`, `t 1`, …, whatever the receiver delivers is
serialized shot by shot exactly if all pauses are brief. -/
theorem serialized_iff (hapart : ∀ n, t n + 123 ≤ t (n + 1))
    (hfits : ∀ n, t n + delay.toNat + 28 ≤ t (n + 1)) :
    (∀ s input, Shooting delay t (fun c => (input c).recv) → Serialized delay t s input) ↔
      Brief delay t := by
  constructor
  · intro hall
    by_contra hpause
    obtain ⟨input, hshots⟩ := exists_shooting hapart hfits
    have hlong : ∃ n, ¬ t (n + 1) ≤ t n + delay.toNat + 27 + 2 ^ 32 := not_forall.1 hpause
    classical
    have hbefore (m : ℕ) (hm : m < Nat.find hlong) :
        t (m + 1) ≤ t m + delay.toNat + 27 + 2 ^ 32 := not_not.1 (Nat.find_min hlong hm)
    let s : State := ⟨.reset, FinalDiatance.dark⟩
    exact not_serialized_of_long hshots hbefore (Nat.not_le.1 (Nat.find_spec hlong)) s
      (hall s input hshots)
  · exact fun hbrief s input hshots => serialized_of_brief hshots hbrief s

/-- A shot every `period` clocks, and words that count the clocks. -/
def periodic (period c : ℕ) : Input where
  recv := {
    sendEn := c % period == 0
    laserEnable := true
    rxDataout := BitVec.ofNat 16 c
    delayCnt := 5 }
  echo _ := { adEn := false, adDistance := 0, timePluse := 0 }

theorem shooting_periodic {period : ℕ} (hperiod : 123 ≤ period) :
    Shooting 5 (fun n => period * n) fun c => (periodic period c).recv where
  apart := fun n => by
    rw [Nat.mul_succ]
    omega
  fits := fun n => by
    have hdelay : (5 : BitVec 8).toNat = 5 := rfl
    rw [Nat.mul_succ, hdelay]
    omega
  sendEn := by
    intro c
    simp only [periodic, beq_iff_eq]
    constructor
    · exact fun h => ⟨c / period, (Nat.mul_div_cancel' (Nat.dvd_of_mod_eq_zero h)).symm⟩
    · rintro ⟨n, rfl⟩
      exact Nat.mul_mod_right period n
  laserEnable := fun _ => rfl
  delayCnt := fun _ => rfl

/-- Registers at zero. -/
def dark : State := ⟨.reset, FinalDiatance.dark⟩

theorem serialized_periodic :
    Shooting 5 (fun n => 123 * n) (fun c => (periodic 123 c).recv) ∧
      ((run dark (periodic 123) 57).final.channel (channelOf 0)).serial.dataEn = true ∧
      ((run dark (periodic 123) 57).final.channel (channelOf 0)).serial.serialData = true := by
  have hshots : Shooting 5 (fun n => 123 * n) fun c => (periodic 123 c).recv :=
    shooting_periodic le_rfl
  have hbrief : Brief 5 fun n => 123 * n := fun n => by
    change 123 * (n + 1) ≤ 123 * n + 5 + 27 + 2 ^ 32
    omega
  have hserial := (serialized_iff hshots.apart hshots.fits).2 hbrief dark _ hshots
  have hclock : 123 * 0 + (5 : BitVec 8).toNat + 33 + 19 = 57 := rfl
  have hbit : ((run dark (periodic 123) (123 * 0 + (5 : BitVec 8).toNat + 33 + 19)).final.channel
      (channelOf 0)).serial.serialData = _ := hserial.bits 0 19 (by decide)
  rw [hclock] at hbit
  exact ⟨hshots, (hserial.frames 57 (channelOf 0)).2 ⟨0, 19, by decide, hclock.symm, rfl⟩,
    hbit.trans (by decide)⟩

/-- In a pause of `2 ^ 33` clocks words that belong to no shot are serialized. -/
theorem not_serialized_rare :
    ¬ ∀ (delay : BitVec 8) (t : ℕ → ℕ) (s : State) (input : ℕ → Input),
      Shooting delay t (fun c => (input c).recv) → Serialized delay t s input := by
  intro hall
  have hshots : Shooting 5 (fun n => 2 ^ 33 * n) fun c => (periodic (2 ^ 33) c).recv :=
    shooting_periodic (by decide)
  refine not_serialized_of_long (n := 0) hshots (fun m hm => absurd hm (Nat.not_lt_zero m)) ?_ dark
    (hall _ _ _ _ hshots)
  decide

end Capture

end SingleScan
