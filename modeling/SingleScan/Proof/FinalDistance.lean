import SingleScan.FinalDistance
import SingleScan.Lib.Trace

/-!
# Every shot's list is handed on from the channel that took the shot

A serializer is described by the clocks since its last strobe, and `vaild` by the clocks for which it
has counted. From the strobe of a channel to its `target_valid` it takes 407 clocks, which is more than
three intervals between shots and less than four, so that `sel` is back at the channel by then.
-/

namespace SingleScan

open Clocked

namespace ParallelSerial

/-- The last strobe was `e` clocks ago. -/
structure Since (s : State) (e : ℕ) : Prop where
  loading : e = 1 → s.state = 1 ∧ s.cnt = 0
  shifting : 2 ≤ e → e ≤ 402 → s.state = 2 ∧ s.cnt.toNat + 2 = e
  idle : 403 ≤ e → s.state = 0
  dataEn : s.dataEn = decide (3 ≤ e ∧ e ≤ 402)

/-- Power-up looks like the clock after the last bit of a shot. -/
theorem since_reset (s : State) : Since s.reset 403 where
  loading h := absurd h (by decide)
  shifting _ h := absurd h (by decide)
  idle _ := rfl
  dataEn := rfl

variable {s : State} {e : ℕ} {tolaEn : Bool}

theorem Since.step (h : Since s e) (hpos : 1 ≤ e) (hstrobe : tolaEn = true → 403 ≤ e)
    (parallelData : BitVec 400) :
    Since (step s tolaEn parallelData) (if tolaEn then 1 else e + 1) := by
  have hen := h.dataEn
  rcases Nat.lt_or_ge e 403 with hbusy | hfree
  · have hquiet : tolaEn = false :=
      Bool.eq_false_iff.mpr fun htrue => absurd (hstrobe htrue) (by omega)
    subst hquiet
    rcases Nat.lt_or_ge e 2 with hfirst | hlater
    · obtain rfl : e = 1 := by omega
      obtain ⟨hstate, hcnt⟩ := h.loading rfl
      constructor <;> simp [ParallelSerial.step, hstate, hcnt, hen]
    · obtain ⟨hstate, hcnt⟩ := h.shifting hlater (by omega)
      by_cases hlast : s.cnt.toNat < 400
      · constructor <;> simp [ParallelSerial.step, hstate, hlast] <;> omega
      · constructor <;> simp [ParallelSerial.step, hstate, hlast] <;> omega
  · have hstate := h.idle hfree
    have hlow : s.dataEn = false := by
      rw [hen]
      exact decide_eq_false (by omega)
    cases tolaEn <;> constructor <;> simp [ParallelSerial.step, hstate, hlow] <;> omega

/-- The data is taken in with the clock after the strobe. -/
theorem Since.load (h : Since s 1) (tolaEn : Bool) (parallelData : BitVec 400) :
    (ParallelSerial.step s tolaEn parallelData).midData = parallelData := by
  simp [ParallelSerial.step, (h.loading rfl).1]

theorem Since.shift (h : Since s e) (hlo : 2 ≤ e) (hhi : e ≤ 401) (tolaEn : Bool)
    (parallelData : BitVec 400) :
    (ParallelSerial.step s tolaEn parallelData).midData = s.midData >>> 1 ∧
      (ParallelSerial.step s tolaEn parallelData).serialData = s.midData.getLsbD 0 := by
  obtain ⟨hstate, hcnt⟩ := h.shifting hlo (by omega)
  have hlt : s.cnt.toNat < 400 := by omega
  simp [ParallelSerial.step, hstate, hlt]

theorem Since.state_eq_one (h : Since s e) (hpos : 1 ≤ e) : s.state = 1 ↔ e = 1 := by
  refine ⟨fun hstate => ?_, fun he => (h.loading he).1⟩
  by_contra hne
  rcases Nat.lt_or_ge e 403 with hbusy | hfree
  · rw [(h.shifting (by omega) (by omega)).1] at hstate
    exact absurd hstate (by decide)
  · rw [h.idle hfree] at hstate
    exact absurd hstate (by decide)

end ParallelSerial

namespace MaxDistance

/-- `vaild` has counted for `a` clocks. -/
def Counted (s : State) (a : ℕ) : Prop :=
  (a ≤ 3 → s.vaild.toNat = a) ∧ (3 < a → 3 < s.vaild.toNat)

theorem counted_reset : Counted State.reset 0 := ⟨fun _ => rfl, fun h => absurd h (by decide)⟩

variable {s : State} {a : ℕ} {dataEn : Bool} {echo : Echo}

theorem Counted.step (h : Counted s a) (dataEn : Bool) (echo : Echo) :
    Counted (step s dataEn echo) (if dataEn then 0 else a + 1) := by
  obtain ⟨hearly, hlate⟩ := h
  unfold Counted MaxDistance.step
  cases dataEn with
  | true => simp
  | false =>
      by_cases hmax : s.vaild.toNat ≤ 0xefff
      · have hnext : (s.vaild + 1).toNat = s.vaild.toNat + 1 := by
          have hone : (1 : BitVec 16).toNat = 1 := rfl
          rw [BitVec.toNat_add, hone]
          omega
        simp only [Bool.false_eq_true, if_false, if_pos hmax, hnext]
        omega
      · have hfull : (0xefff : BitVec 16).toNat = 0xefff := rfl
        simp only [Bool.false_eq_true, if_false, if_neg hmax, hfull]
        omega

theorem Counted.step_targetValid (h : Counted s a) :
    (MaxDistance.step s dataEn echo).targetValid = true ↔ a = 3 := by
  obtain ⟨hearly, hlate⟩ := h
  have hval : s.vaild = 3 ↔ s.vaild.toNat = 3 := by
    rw [← BitVec.toNat_inj]
    rfl
  simp only [MaxDistance.step, beq_iff_eq, hval]
  omega

theorem step_list (h : dataEn = false) (s : State) (echo : Echo) :
    (step s dataEn echo).multPluse = s.multPluse ∧
      (step s dataEn echo).multDistance = s.multDistance := by
  simp [step, listStep, h]

end MaxDistance

namespace DistanceModule

/-- The clock `c` of a channel with its strobes at the clocks `p 0`, `p 1`, …: the last strobe was `e`
clocks ago, and `vaild` has counted for `a` clocks. Before the first strobe both go on from power-up. -/
def Phase (p : ℕ → ℕ) (c e a : ℕ) : Prop :=
  (c ≤ p 0 ∧ e = c + 403 ∧ a = c) ∨
    ∃ m, p m < c ∧ c ≤ p (m + 1) ∧ c = p m + e ∧
      (e ≤ 3 → a = c ∨ 3 < a ∧ 3 < c) ∧ (4 ≤ e → a = e - 403)

variable {p : ℕ → ℕ} {c e a : ℕ}

section Phases

variable (hgap : ∀ m, p m + 407 ≤ p (m + 1))

include hgap

theorem strobes_strictMono : StrictMono p := strictMono_nat_of_lt_succ fun m => by
  have := hgap m
  omega

theorem Phase.free (h : Phase p c e a) (hstrobe : ∃ m, c = p m) : 403 ≤ e := by
  obtain ⟨j, rfl⟩ := hstrobe
  rcases h with ⟨-, he, -⟩ | ⟨m, hlo, hhi, hc, -, -⟩
  · omega
  · have hj : m + 1 ≤ j := (strobes_strictMono hgap).lt_iff_lt.mp hlo
    have hle : p (m + 1) ≤ p j := (strobes_strictMono hgap).monotone hj
    have := hgap m
    omega

theorem Phase.strobe (h : Phase p c e a) (hstrobe : ∃ m, c = p m) : Phase p (c + 1) 1 (a + 1) := by
  have hfree := h.free hgap hstrobe
  obtain ⟨j, rfl⟩ := hstrobe
  refine .inr ⟨j, by omega, by have := hgap j; omega, rfl, fun _ => ?_, fun h => by omega⟩
  rcases h with ⟨-, -, ha⟩ | ⟨m, hlo, hhi, hc, -, ha⟩
  · exact .inl (by omega)
  · have hj : m + 1 ≤ j := (strobes_strictMono hgap).lt_iff_lt.mp hlo
    have hle : p (m + 1) ≤ p j := (strobes_strictMono hgap).monotone hj
    have := hgap m
    have := ha (by omega)
    exact .inr (by omega)

omit hgap in
theorem Phase.quiet (h : Phase p c e a) (hquiet : ¬ ∃ m, c = p m) :
    Phase p (c + 1) (e + 1) (if 3 ≤ e ∧ e ≤ 402 then 0 else a + 1) := by
  rcases h with ⟨hle, he, ha⟩ | ⟨m, hlo, hhi, hc, hearly, hlate⟩
  · have hne : c ≠ p 0 := fun h => hquiet ⟨0, h⟩
    rw [if_neg (by omega)]
    exact .inl (by omega)
  · have hne : c ≠ p (m + 1) := fun h => hquiet ⟨m + 1, h⟩
    refine .inr ⟨m, by omega, by omega, by omega, fun h3 => ?_, fun h4 => ?_⟩
    · have := hearly (by omega)
      rw [if_neg (by omega)]
      omega
    · split
      · omega
      · have := hlate (by omega)
        omega

theorem Phase.due (h : Phase p c e a) : a = 3 ↔ c = 3 ∨ ∃ m, c = p m + 406 := by
  have hmono := strobes_strictMono hgap
  rcases h with ⟨hle, he, ha⟩ | ⟨m, hlo, hhi, hc, hearly, hlate⟩
  · have hnone : ¬ ∃ m, c = p m + 406 := by
      rintro ⟨m, hm⟩
      have : p 0 ≤ p m := hmono.monotone (Nat.zero_le m)
      omega
    rw [or_iff_left hnone, ha]
  · have hsome : (∃ j, c = p j + 406) ↔ e = 406 := by
      refine ⟨fun ⟨j, hj⟩ => ?_, fun h => ⟨m, by omega⟩⟩
      rcases Nat.lt_trichotomy j m with hlt | rfl | hgt
      · have : p (j + 1) ≤ p m := hmono.monotone hlt
        have := hgap j
        omega
      · omega
      · have : p (m + 1) ≤ p j := hmono.monotone hgt
        omega
    rw [hsome]
    rcases Nat.lt_or_ge e 4 with h3 | h4
    · have := hearly (by omega)
      omega
    · have := hlate h4
      omega

theorem Phase.since (h : Phase p c e a) {m : ℕ} (hlo : p m < c) (hhi : c ≤ p (m + 1)) :
    c = p m + e := by
  have hmono := strobes_strictMono hgap
  rcases h with ⟨hle, -, -⟩ | ⟨j, hjlo, hjhi, hc, -, -⟩
  · have : p 0 ≤ p m := hmono.monotone (Nat.zero_le m)
    omega
  · have h1 : j < m + 1 := hmono.lt_iff_lt.mp (by omega)
    have h2 : m < j + 1 := hmono.lt_iff_lt.mp (by omega)
    obtain rfl : j = m := by omega
    exact hc

theorem Phase.first (h : Phase p c e a) : e = 1 ↔ ∃ m, c = p m + 1 := by
  constructor
  · intro he
    rcases h with ⟨-, he', -⟩ | ⟨m, -, -, hc, -, -⟩
    · omega
    · exact ⟨m, by omega⟩
  · rintro ⟨m, rfl⟩
    have := hgap m
    have := h.since hgap (m := m) (by omega) (by omega)
    omega

end Phases

end DistanceModule

namespace FinalDiatance

/-- Up to clock `stop` the laser is enabled, and the shots come at the clocks `t 0`, `t 1`, …. -/
structure Shots (t : ℕ → ℕ) (input : ℕ → Input) (stop : ℕ) : Prop where
  apart : ∀ n, t n + 123 ≤ t (n + 1)
  close : ∀ n, t (n + 1) ≤ t n + 130
  tolaEn : ∀ c < stop, (input c).tolaEn = true ↔ ∃ n, c = t n

/-- Up to clock `stop` the shots come at the clocks `t 0`, `t 1`, …, far enough apart for the
serializers. -/
structure Strobed (t : ℕ → ℕ) (input : ℕ → Input) (stop : ℕ) : Prop where
  apart : ∀ n, t n + 123 ≤ t (n + 1)
  tolaEn : ∀ c < stop, (input c).tolaEn = true ↔ ∃ n, c = t n

theorem Shots.strobed {t : ℕ → ℕ} {input : ℕ → Input} {stop : ℕ} (h : Shots t input stop) :
    Strobed t input stop := ⟨h.apart, h.tolaEn⟩

/-- The channel that takes shot `n`. -/
def channelOf (n : ℕ) : Fin 4 := ⟨n % 4, Nat.mod_lt n (by decide)⟩

theorem channelOf_succ (n : ℕ) : channelOf (n + 1) = channelOf n + 1 := by
  simp only [channelOf, Fin.ext_iff, Fin.val_add, Fin.val_one]
  omega

theorem channelOf_succ_sub (n : ℕ) : channelOf (n + 1) - 1 = channelOf n := by
  simp only [channelOf, Fin.ext_iff, Fin.val_sub, Fin.val_one]
  omega

theorem channelOf_add_four (n : ℕ) : channelOf (n + 4) = channelOf n := by
  simp only [channelOf, Fin.ext_iff]
  omega

/-- Every shot of channel `k` is its `m`-th for some `m`. -/
theorem exists_channelOf (k : Fin 4) (q : ℕ → Prop) :
    (∃ n, q n ∧ k = channelOf n) ↔ ∃ m, q (4 * m + k) := by
  constructor
  · rintro ⟨n, hq, rfl⟩
    refine ⟨n / 4, ?_⟩
    rwa [channelOf, Nat.div_add_mod]
  · rintro ⟨m, hq⟩
    refine ⟨_, hq, ?_⟩
    simp only [channelOf, Fin.ext_iff]
    omega

variable {t : ℕ → ℕ} {input : ℕ → Input} {stop : ℕ} {s : State}

section Strobed

variable (h : Strobed t input stop)

include h

theorem Strobed.strictMono : StrictMono t := strictMono_nat_of_lt_succ fun n => by
  have := h.apart n
  omega

theorem Strobed.four (n : ℕ) : t n + 492 ≤ t (n + 4) := by
  have h1 := h.apart n
  have h2 : t (n + 1) + 123 ≤ t (n + 2) := h.apart (n + 1)
  have h3 : t (n + 2) + 123 ≤ t (n + 3) := h.apart (n + 2)
  have h4 : t (n + 3) + 123 ≤ t (n + 4) := h.apart (n + 3)
  omega

end Strobed

section Shots

variable (h : Shots t input stop)

include h

theorem Shots.three (n : ℕ) : t (n + 3) ≤ t n + 390 := by
  have h1 := h.close n
  have h2 : t (n + 2) ≤ t (n + 1) + 130 := h.close (n + 1)
  have h3 : t (n + 3) ≤ t (n + 2) + 130 := h.close (n + 2)
  omega

/-- Before the list of shot `n` is there, three more shots have come, and not the fourth. -/
theorem Shots.before (n m : ℕ) {d : ℕ} (hlo : 390 < d) (hhi : d ≤ 492) :
    t m < t n + d ↔ m < n + 4 := by
  have := h.strobed.four n
  have := h.three n
  constructor
  · intro hlt
    exact h.strobed.strictMono.lt_iff_lt.mp (by omega)
  · intro hlt
    have : t m ≤ t (n + 3) := h.strobed.strictMono.monotone (by omega)
    omega

end Shots

/-- Before clock `c` the shots `0`, …, `n - 1` have come. -/
structure Turn (t : ℕ → ℕ) (c : ℕ) (s : State) (n : ℕ) : Prop where
  shots : ∀ m, m < n ↔ t m < c
  sel : s.sel = channelOf n
  state : s.state = channelOf n
  strobes : ∀ k, s.tolaEn k = true ↔ ∃ m, c = t m + 1 ∧ k = channelOf m

theorem turn_reset : Turn t 0 s.reset 0 where
  shots _ := by omega
  sel := rfl
  state := rfl
  strobes k := by
    have hlow : s.reset.tolaEn k = false := rfl
    simp [hlow]

theorem Turn.shot (h : Strobed t input stop) {n c : ℕ} {i : Input} (hturn : Turn t c s n)
    (hen : i.tolaEn = true) (hshot : ∃ m, c = t m) : Turn t (c + 1) (step s i) (n + 1) := by
  obtain ⟨j, rfl⟩ := hshot
  have hmono := h.strictMono
  obtain rfl : j = n := by
    have h1 : ¬ j < n := fun hlt => absurd ((hturn.shots j).mp hlt) (lt_irrefl _)
    have h2 : ¬ n < j := fun hlt => h1 (by
      have := (hturn.shots n).mpr (hmono hlt)
      omega)
    omega
  have hlow (k) : s.tolaEn k = false := by
    rw [Bool.eq_false_iff, Ne, hturn.strobes k]
    rintro ⟨m, hm, -⟩
    have hlt : m < j := hmono.lt_iff_lt.mp (by omega)
    have : t (m + 1) ≤ t j := hmono.monotone hlt
    have := h.apart m
    omega
  refine ⟨fun m => ?_, ?_, ?_, fun k => ?_⟩
  · rw [Nat.lt_succ_iff, Nat.lt_succ_iff, hmono.le_iff_le]
  · rw [channelOf_succ, ← hturn.sel]
    simp [step, hen]
  · rw [channelOf_succ, ← hturn.state]
    simp [step, hen]
  · have hstrobe : (step s i).tolaEn k = Function.update s.tolaEn s.state true k := by
      simp [step, strobeStep, hen]
    rw [hstrobe, hturn.state]
    constructor
    · intro hk
      by_cases hkj : k = channelOf j
      · exact ⟨j, rfl, hkj⟩
      · rw [Function.update_of_ne hkj, hlow] at hk
        exact absurd hk Bool.false_ne_true
    · rintro ⟨m, hm, rfl⟩
      obtain rfl : j = m := hmono.injective (by omega)
      exact Function.update_self ..

theorem Turn.quiet (h : Strobed t input stop) {n c : ℕ} {i : Input} (hturn : Turn t c s n)
    (hen : i.tolaEn = false) (hshot : ¬ ∃ m, c = t m) : Turn t (c + 1) (step s i) n := by
  have hne (m) : c ≠ t m := fun heq => hshot ⟨m, heq⟩
  refine ⟨fun m => ?_, ?_, ?_, fun k => ?_⟩
  · rw [hturn.shots m]
    have := hne m
    omega
  · rw [← hturn.sel]
    simp [step, selectStep, hen]
  · rw [← hturn.state]
    simp [step, selectStep, hen]
  · have hnone : ¬ ∃ m, c + 1 = t m + 1 ∧ k = channelOf m :=
      fun ⟨m, hm, _⟩ => hne m (by omega)
    rw [iff_false_right hnone, Bool.not_eq_true]
    have hstrobe : (step s i).tolaEn k =
        Function.update (Function.update s.tolaEn s.state false) (s.state - 1) false k := by
      simp [step, strobeStep, hen]
    rw [hstrobe]
    by_cases hprev : k = s.state - 1
    · rw [hprev, Function.update_self]
    · rw [Function.update_of_ne hprev]
      by_cases hcur : k = s.state
      · rw [hcur, Function.update_self]
      · rw [Function.update_of_ne hcur, Bool.eq_false_iff, Ne, hturn.strobes k]
        -- a strobe that is still up belongs to the last shot
        rintro ⟨m, hm, rfl⟩
        have hlt : m < n := (hturn.shots m).mpr (by omega)
        have hlast : ¬ m + 1 < n := fun hlt => by
          have := (hturn.shots (m + 1)).mp hlt
          have := h.apart m
          omega
        obtain rfl : m + 1 = n := by omega
        apply hprev
        rw [hturn.state, channelOf_succ_sub]

theorem exists_turn (h : Strobed t input stop) {c : ℕ} (hc : c ≤ stop) :
    ∃ n, Turn t c (trace step s.reset input c) n := by
  refine trace_induction (fun c s => ∃ n, Turn t c s n) ⟨0, turn_reset⟩ (fun c hlt ih => ?_) c hc
  obtain ⟨n, hturn⟩ := ih
  by_cases hshot : ∃ m, c = t m
  · exact ⟨n + 1, hturn.shot h ((h.tolaEn c hlt).mpr hshot) hshot⟩
  · exact ⟨n, hturn.quiet h (by
      rw [Bool.eq_false_iff, Ne, h.tolaEn c hlt]
      exact hshot) hshot⟩

theorem Turn.eq {n m c : ℕ} (hturn : Turn t c s n) (h : ∀ j, t j < c ↔ j < m) : n = m := by
  have hall (j) : j < n ↔ j < m := (hturn.shots j).trans (h j)
  have h1 := hall n
  have h2 := hall m
  omega

/-- The clocks of the strobes of channel `k`. -/
def strobesOf (t : ℕ → ℕ) (k : Fin 4) (m : ℕ) : ℕ := t (4 * m + k) + 1

theorem Strobed.strobesOf_gap (h : Strobed t input stop) (k : Fin 4) (m : ℕ) :
    strobesOf t k m + 407 ≤ strobesOf t k (m + 1) := by
  have hfour := h.four (4 * m + k)
  have hnext : 4 * (m + 1) + (k : ℕ) = 4 * m + k + 4 := by omega
  unfold strobesOf
  rw [hnext]
  omega

theorem exists_strobesOf (k : Fin 4) (c d : ℕ) :
    (∃ m, c = strobesOf t k m + d) ↔ ∃ n, c = t n + (d + 1) ∧ k = channelOf n := by
  rw [exists_channelOf k fun n => c = t n + (d + 1)]
  have hsum (m : ℕ) : strobesOf t k m + d = t (4 * m + k) + (d + 1) := by
    unfold strobesOf
    omega
  simp only [hsum]

/-- The serializer and the list of channel `k` at clock `c`. -/
def Channel (t : ℕ → ℕ) (c : ℕ) (s : State) (k : Fin 4) (e a : ℕ) : Prop :=
  DistanceModule.Phase (strobesOf t k) c e a ∧ 1 ≤ e ∧
    ParallelSerial.Since (s.channel k).serial e ∧ MaxDistance.Counted (s.channel k).list a

theorem exists_channel (h : Strobed t input stop) {c : ℕ} (hc : c ≤ stop) (k : Fin 4) :
    ∃ e a, Channel t c (trace step s.reset input c) k e a := by
  refine trace_induction (fun c s => ∃ e a, Channel t c s k e a) ⟨403, 0, ?_⟩
    (fun c hlt ih => ?_) c hc
  · exact ⟨.inl ⟨Nat.zero_le _, rfl, rfl⟩, by omega, ParallelSerial.since_reset _,
      MaxDistance.counted_reset⟩
  · obtain ⟨e, a, hphase, hpos, hsince, hcount⟩ := ih
    obtain ⟨n, hturn⟩ := exists_turn (s := s) h hlt.le
    have hgap := h.strobesOf_gap k
    have hstrobe : (trace step s.reset input c).tolaEn k = true ↔ ∃ m, c = strobesOf t k m :=
      (hturn.strobes k).trans (exists_strobesOf k c 0).symm
    have hserial := hsince.step hpos (fun hup => hphase.free hgap (hstrobe.mp hup))
      ((trace step s.reset input c).totalData k)
    have hen : ((trace step s.reset input c).channel k).serial.dataEn = true ↔ 3 ≤ e ∧ e ≤ 402 := by
      rw [hsince.dataEn, decide_eq_true_eq]
    have hlist : MaxDistance.Counted
        ((step (trace step s.reset input c) (input c)).channel k).list
        (if ((trace step s.reset input c).channel k).serial.dataEn then 0 else a + 1) := hcount.step _ _
    by_cases hup : ∃ m, c = strobesOf t k m
    · have hfree := hphase.free hgap hup
      rw [if_pos (hstrobe.mpr hup)] at hserial
      rw [if_neg (fun h => by have := hen.mp h; omega)] at hlist
      exact ⟨1, a + 1, hphase.strobe hgap hup, le_rfl, hserial, hlist⟩
    · rw [if_neg (fun h => hup (hstrobe.mp h))] at hserial
      rw [if_congr hen rfl rfl] at hlist
      exact ⟨e + 1, _, hphase.quiet hup, by omega, hserial, hlist⟩

/-- `target_valid` of a channel comes 408 clocks after each of its shots, and once after power-up. -/
theorem targetValid_iff (h : Strobed t input stop) {c : ℕ} (hc : c ≤ stop) (k : Fin 4) :
    ((trace step s.reset input c).channel k).list.targetValid = true ↔
      c = 4 ∨ ∃ n, c = t n + 408 ∧ k = channelOf n := by
  cases c with
  | zero =>
      have hlow : ((trace step s.reset input 0).channel k).list.targetValid = false := rfl
      simp [hlow]
  | succ c =>
      obtain ⟨e, a, hphase, -, -, hcount⟩ := exists_channel (s := s) h (c := c) (by omega) k
      have hdue := hphase.due (h.strobesOf_gap k)
      calc ((trace step s.reset input (c + 1)).channel k).list.targetValid = true
        _ ↔ a = 3 := hcount.step_targetValid
        _ ↔ c = 3 ∨ ∃ n, c = t n + 407 ∧ k = channelOf n := by
            rw [hdue, exists_strobesOf k c 406]
        _ ↔ c + 1 = 4 ∨ ∃ n, c + 1 = t n + 408 ∧ k = channelOf n := by
            simp only [Nat.reduceEqDiff]

theorem validM_iff (h : Strobed t input stop) {c : ℕ} (hc : c ≤ stop) :
    (trace step s.reset input c).validM = true ↔ c = 4 ∨ ∃ n, c = t n + 408 := by
  have hsome (s : State) : s.validM = true ↔ ∃ k, (s.channel k).list.targetValid = true := by
    simp [State.validM, Fin.exists_fin_succ, or_assoc]
  rw [hsome]
  simp only [targetValid_iff h hc]
  constructor
  · rintro ⟨k, hfour | ⟨n, hn, -⟩⟩
    · exact .inl hfour
    · exact .inr ⟨n, hn⟩
  · rintro (hfour | ⟨n, hn⟩)
    · exact ⟨0, .inl hfour⟩
    · exact ⟨channelOf n, .inr ⟨n, hn, rfl⟩⟩

/-- Channel `k` takes its data in with this clock. -/
def State.loads (s : State) (k : Fin 4) : Bool := (s.channel k).serial.state == 1

/-- The list that channel `k` holds. -/
def State.list (s : State) (k : Fin 4) : BitVec 40 × BitVec 80 :=
  ((s.channel k).list.multPluse, (s.channel k).list.multDistance)

/-- The list that is handed on. -/
def State.mult (s : State) : BitVec 40 × BitVec 80 := (s.multPluse, s.multDistance)

theorem loads_iff (h : Strobed t input stop) {c : ℕ} (hc : c ≤ stop) (k : Fin 4) :
    (trace step s.reset input c).loads k = true ↔ ∃ n, c = t n + 2 ∧ k = channelOf n := by
  obtain ⟨e, a, hphase, hpos, hsince, -⟩ := exists_channel (s := s) h hc k
  calc (trace step s.reset input c).loads k = true
    _ ↔ e = 1 := by rw [State.loads, beq_iff_eq, hsince.state_eq_one hpos]
    _ ↔ ∃ m, c = strobesOf t k m + 1 := hphase.first (h.strobesOf_gap k)
    _ ↔ ∃ n, c = t n + 2 ∧ k = channelOf n := exists_strobesOf k c 1

/-- The serializer of the channel of shot `n`, until the next shot of that channel. -/
theorem exists_since (h : Strobed t input stop) (s : State) (n : ℕ) {d : ℕ} (hpos : 1 ≤ d)
    (hnext : d ≤ 492) (hstop : t n + 1 + d ≤ stop) :
    ParallelSerial.Since
      ((trace step s.reset input (t n + 1 + d)).channel (channelOf n)).serial d := by
  obtain ⟨e, a, hphase, -, hsince, -⟩ := exists_channel (s := s) h hstop (channelOf n)
  have hn : 4 * (n / 4) + (channelOf n : ℕ) = n := by
    simp only [channelOf]
    omega
  have hthis : strobesOf t (channelOf n) (n / 4) = t n + 1 := by rw [strobesOf, hn]
  have hthat : strobesOf t (channelOf n) (n / 4 + 1) = t (n + 4) + 1 := by
    rw [strobesOf, Nat.mul_add, Nat.add_right_comm, hn]
  have hfour := h.four n
  have he := hphase.since (h.strobesOf_gap (channelOf n)) (m := n / 4) (by omega) (by omega)
  obtain rfl : e = d := by omega
  exact hsince

/-- The multiplexer takes the points over with the clock after the strobe. -/
theorem totalData_of_shot (h : Strobed t input stop) (s : State) (n : ℕ) (hstop : t n + 2 ≤ stop) :
    (trace step s.reset input (t n + 2)).totalData (channelOf n) =
      (input (t n + 1)).totalData := by
  obtain ⟨m, hturn⟩ := exists_turn (s := s) h (c := t n + 1) (by omega)
  have hm : m = n + 1 := hturn.eq fun j => by rw [Nat.lt_succ_iff, Nat.lt_succ_iff,
    h.strictMono.le_iff_le]
  have hsel : (trace step s.reset input (t n + 1)).sel - 1 = channelOf n := by
    rw [hturn.sel, hm, channelOf_succ_sub]
  have hup := (hturn.strobes (channelOf n)).mpr ⟨n, rfl, rfl⟩
  rw [trace]
  simp only [step, selectStep, hsel, hup, if_true, Function.update_self]

/-- The points of the shot run through the channel one by one. -/
theorem points_of_shot (h : Strobed t input stop) (s : State) (n : ℕ) {j : ℕ} (hj : j ≤ 400)
    (hstop : t n + 3 + j ≤ stop) :
    ((trace step s.reset input (t n + 3 + j)).channel (channelOf n)).serial.midData =
      (input (t n + 1)).totalData >>> j := by
  induction j with
  | zero =>
      have hsince := exists_since h s n (d := 1) le_rfl (by omega) (by omega)
      have hdata := totalData_of_shot h s n (by omega)
      rw [BitVec.ushiftRight_zero, ← hdata]
      exact hsince.load _ _
  | succ j ih =>
      have hsince := exists_since h s n (d := j + 2) (by omega) (by omega) (by omega)
      have hclock : t n + 1 + (j + 2) = t n + 3 + j := by omega
      rw [hclock] at hsince
      have hshift := (hsince.shift (by omega) (by omega)
        ((trace step s.reset input (t n + 3 + j)).tolaEn (channelOf n))
        ((trace step s.reset input (t n + 3 + j)).totalData (channelOf n))).1
      rw [BitVec.shiftRight_add, ← ih (by omega) (by omega)]
      exact hshift

theorem serialData_of_shot (h : Strobed t input stop) (s : State) (n : ℕ) {j : ℕ} (hj : j < 400)
    (hstop : t n + 4 + j ≤ stop) :
    ((trace step s.reset input (t n + 4 + j)).channel (channelOf n)).serial.dataEn = true ∧
      ((trace step s.reset input (t n + 4 + j)).channel (channelOf n)).serial.serialData =
        (input (t n + 1)).totalData.getLsbD j := by
  have hnow := exists_since h s n (d := j + 3) (by omega) (by omega) (by omega)
  have hbefore := exists_since h s n (d := j + 2) (by omega) (by omega) (by omega)
  have hclock : t n + 1 + (j + 3) = t n + 4 + j := by omega
  have hclock' : t n + 1 + (j + 2) = t n + 3 + j := by omega
  rw [hclock] at hnow
  rw [hclock'] at hbefore
  refine ⟨?_, ?_⟩
  · rw [hnow.dataEn, decide_eq_true_eq]
    omega
  · have hpoint := (hbefore.shift (by omega) (by omega)
      ((trace step s.reset input (t n + 3 + j)).tolaEn (channelOf n))
      ((trace step s.reset input (t n + 3 + j)).totalData (channelOf n))).2
    rw [points_of_shot h s n (by omega) (by omega), BitVec.getLsbD_ushiftRight,
      Nat.add_zero] at hpoint
    have hnext : t n + 4 + j = t n + 3 + j + 1 := by omega
    rw [hnext]
    exact hpoint

/-- `data_en` of a channel is up exactly while the points of its shots come out. -/
theorem dataEn_iff (h : Strobed t input stop) (s : State) {c : ℕ} (hc : c ≤ stop) (k : Fin 4) :
    ((trace step s.reset input c).channel k).serial.dataEn = true ↔
      ∃ n j, j < 400 ∧ c = t n + 4 + j ∧ k = channelOf n := by
  obtain ⟨e, a, hphase, -, hsince, -⟩ := exists_channel (s := s) h hc k
  have hgap := h.strobesOf_gap k
  rw [hsince.dataEn, decide_eq_true_eq]
  constructor
  · rintro ⟨hlo, hhi⟩
    rcases hphase with ⟨-, he, -⟩ | ⟨m, -, -, hm, -, -⟩
    · omega
    · obtain ⟨n, hn, hk⟩ := (exists_strobesOf (t := t) k c e).mp ⟨m, hm⟩
      exact ⟨n, e - 3, by omega, by omega, hk⟩
  · rintro ⟨n, j, hj, hn, hk⟩
    obtain ⟨m, hm⟩ := (exists_strobesOf (t := t) k c (j + 3)).mpr ⟨n, by omega, hk⟩
    have hnext := hgap m
    have he := hphase.since hgap (m := m) (by omega) (by omega)
    omega

theorem list_of_shot (h : Strobed t input stop) (s : State) (n : ℕ) {j : ℕ} (hj : j ≤ 4)
    (hstop : t n + 404 + j ≤ stop) :
    (trace step s.reset input (t n + 404 + j)).list (channelOf n) =
      (trace step s.reset input (t n + 404)).list (channelOf n) := by
  induction j with
  | zero => rfl
  | succ j ih =>
      have hsince := exists_since h s n (d := 403 + j) (by omega) (by omega) (by omega)
      have hclock : t n + 1 + (403 + j) = t n + 404 + j := by omega
      rw [hclock] at hsince
      have hlow : ((trace step s.reset input (t n + 404 + j)).channel
          (channelOf n)).serial.dataEn = false := by
        rw [hsince.dataEn]
        exact decide_eq_false (by omega)
      rw [← ih (by omega) (by omega)]
      obtain ⟨hpluse, hdistance⟩ := MaxDistance.step_list hlow
        ((trace step s.reset input (t n + 404 + j)).channel (channelOf n)).list
        ((input (t n + 404 + j)).echo (channelOf n))
      exact Prod.ext hpluse hdistance

/-- The output of the multiplexer stands still between the pulses. -/
theorem step_mult {i : Input} (hquiet : s.validM = false) : (step s i).mult = s.mult := by
  unfold step selectStep
  rw [hquiet]
  split <;> rfl

/-- The pulse hands the list of the selected channel on, if no channel loads. -/
theorem step_mult_validM {i : Input} (hvalid : s.validM = true)
    (hload : s.tolaEn (s.sel - 1) = false) : (step s i).mult = s.list s.sel := by
  simp [step, selectStep, hvalid, hload, State.mult, State.list]

/-- With the pulse of shot `n` its list is handed on. -/
theorem mult_pulse (h : Shots t input stop) (s : State) (n : ℕ) (hstop : t n + 409 ≤ stop) :
    (trace step s.reset input (t n + 409)).mult =
      (trace step s.reset input (t n + 408)).list (channelOf n) := by
  obtain ⟨m, hturn⟩ := exists_turn (s := s) h.strobed (c := t n + 408) (by omega)
  have hm : m = n + 4 := hturn.eq fun j => h.before n j (by omega) (by omega)
  have hsel : (trace step s.reset input (t n + 408)).sel = channelOf n := by
    rw [hturn.sel, hm, channelOf_add_four]
  have hvalid := (validM_iff (s := s) h.strobed (c := t n + 408) (by omega)).mpr (.inr ⟨n, rfl⟩)
  have hload (k) : (trace step s.reset input (t n + 408)).tolaEn k = false := by
    rw [Bool.eq_false_iff, Ne, hturn.strobes k]
    rintro ⟨j, hj, -⟩
    -- a shot 407 clocks after another would be both before and after its fourth
    have h1 := (h.before n j (d := 408) (by omega) (by omega)).mp (by omega)
    have h2 := (h.before n j (d := 407) (by omega) (by omega)).mpr h1
    omega
  have hstep := step_mult_validM (i := input (t n + 408)) hvalid (hload _)
  rw [hsel] at hstep
  exact hstep

/-- **Every shot's list is handed on from the channel that took the shot.** -/
theorem mult_of_shot (h : Shots t input stop) (s : State) :
    (∀ c ≤ stop, (trace step s.reset input c).validM = true ↔ c = 4 ∨ ∃ n, c = t n + 408) ∧
      ∀ n, t n + 408 < stop →
        (∀ k, (trace step s.reset input (t n + 2)).loads k = true ↔ k = channelOf n) ∧
          (∀ j < 400,
            ((trace step s.reset input (t n + 4 + j)).channel (channelOf n)).serial.dataEn =
                true ∧
              ((trace step s.reset input (t n + 4 + j)).channel (channelOf n)).serial.serialData =
                (input (t n + 1)).totalData.getLsbD j) ∧
          ∀ c, t n + 408 < c → c ≤ t (n + 1) + 408 → c ≤ stop →
            (trace step s.reset input c).mult =
              (trace step s.reset input (t n + 404)).list (channelOf n) := by
  refine ⟨fun c hc => validM_iff h.strobed hc, fun n hstop => ⟨fun k => ?_, fun j hj => ?_, ?_⟩⟩
  · rw [loads_iff h.strobed (by omega)]
    constructor
    · rintro ⟨m, hm, rfl⟩
      have hsame : m = n := h.strobed.strictMono.injective (by omega)
      rw [hsame]
    · rintro rfl
      exact ⟨n, rfl, rfl⟩
  · exact serialData_of_shot h.strobed s n hj (by omega)
  · intro c hlo
    induction c, Nat.succ_le_iff.mpr hlo using Nat.le_induction with
    | base =>
        intro _ hle
        rw [mult_pulse h s n hle]
        exact list_of_shot h.strobed s n (j := 4) le_rfl (by omega)
    | succ c hle ih =>
        intro hhi hc
        have hquiet : (trace step s.reset input c).validM = false := by
          rw [Bool.eq_false_iff, Ne, validM_iff h.strobed (by omega)]
          rintro (hfour | ⟨m, hm⟩)
          · omega
          · have h1 : n < m := h.strobed.strictMono.lt_iff_lt.mp (by omega)
            have h2 : m < n + 1 := h.strobed.strictMono.lt_iff_lt.mp (by omega)
            omega
        exact (step_mult hquiet).trans (ih (by omega) (by omega) (by omega))

/-- A shot every 123 clocks, with one echo in the middle of the first. -/
def briskShots (c : ℕ) : Input where
  tolaEn := c % 123 == 0
  totalData := BitVec.ofNat 400 c
  echo _ := { adEn := c == 200, adDistance := 7, timePluse := 3 }

theorem shots_brisk : Shots (123 * ·) briskShots 1000 where
  apart n := by omega
  close n := by omega
  tolaEn c _ := by
    simp only [briskShots, beq_iff_eq]
    constructor
    · exact fun h => ⟨c / 123, by omega⟩
    · rintro ⟨n, rfl⟩
      exact Nat.mul_mod_right ..

/-- All registers at zero. -/
def dark : State where
  sel := channelOf 0
  state := channelOf 0
  tolaEn _ := false
  totalData _ := 0
  multPluse := 0
  multDistance := 0
  channel _ := ⟨⟨0, 0, 0, 0, false, false⟩, MaxDistance.State.reset⟩

theorem mult_of_shot_brisk :
    (trace step dark.reset briskShots 532).mult =
      (trace step dark.reset briskShots 527).list (channelOf 1) :=
  ((mult_of_shot shots_brisk dark).2 1 (by decide)).2.2 532 (by decide) (by decide) (by decide)

end FinalDiatance

end SingleScan
