import SingleScan.Ad5328
import SingleScan.Lib.Trace

/-!
# A request to the DAC is lost unless the driver waits for it

The driver answers a request in `WAIT` only, and a write keeps it away from there for 800 clocks. What
it hands to the serializer last is therefore known at every clock from its state (`outlook`).
-/

namespace SingleScan

namespace Ad5328Core

/-- Ready for a request. -/
structure Quiet (s : State) : Prop where
  cs : s.cs = .idle
  lock : s.wrReqLock = false
  ready : s.ready = true

/-- The serializer `m` clocks into a request, which comes in clock 3. -/
inductive At (s : State) : ℕ → Prop
  | before {m : ℕ} (early : m ≤ 3) (quiet : Quiet s) : At s m
  | locked (cs : s.cs = .idle) (lock : s.wrReqLock = true) : At s 4
  | start {k : ℕ} (short : k ≤ 1) (cs : s.cs = .start) (cnt : s.stateCnt.toNat = k)
      (lock : s.wrReqLock = true) : At s (5 + k)
  | write {k : ℕ} (short : k ≤ 320) (cs : s.cs = .write) (div : s.divCnt.toNat < 20)
      (cnt : s.bitCnt.toNat * 20 + s.divCnt.toNat = k) (lock : 1 ≤ k → s.wrReqLock = false) :
      At s (7 + k)
  | ldacN {k : ℕ} (short : k ≤ 20) (cs : s.cs = .ldacN) (cnt : s.stateCnt.toNat = k)
      (lock : s.wrReqLock = false) : At s (328 + k)
  | finish {k : ℕ} (short : k ≤ 10) (cs : s.cs = .over) (cnt : s.stateCnt.toNat = k)
      (lock : s.wrReqLock = false) : At s (349 + k)
  | after {m : ℕ} (late : 360 ≤ m) (quiet : Quiet s) : At s m

variable {s : State} {m : ℕ} {wrReq : Bool} {wrData : BitVec 16}

theorem toNat_succ {w n : ℕ} {x : BitVec w} (hx : x.toNat = n) (hlt : n + 1 < 2 ^ w) :
    (x + 1#w).toNat = n + 1 := by
  rw [BitVec.toNat_add, hx, BitVec.toNat_ofNat, Nat.add_mod_mod, Nat.mod_eq_of_lt hlt]

theorem Quiet.next (h : Quiet s) : Quiet (step s false wrData) := by
  obtain ⟨hcs, hlock, hready⟩ := h
  have hns : s.ns = .idle := by simp [State.ns, hcs, hlock]
  constructor <;> simp [step, pins, hns, hcs, hlock]

theorem Quiet.request (h : Quiet s) : At (step s true wrData) 4 := by
  obtain ⟨hcs, hlock, hready⟩ := h
  have hns : s.ns = .idle := by simp [State.ns, hcs, hlock]
  exact .locked (by simp [step, hns]) (by simp [step])

/-- One clock of a request. A second one is answered together with the first if it comes before the
first bit. -/
theorem At.next (h : At s m) (hreq : m = 3 → wrReq = true)
    (hquiet : wrReq = true → m = 3 ∨ m = 6) : At (step s wrReq wrData) (m + 1) := by
  have hlow (hm : m ≠ 3) (hm' : m ≠ 6) : wrReq = false := by
    rw [Bool.eq_false_iff]
    exact fun h => (hquiet h).elim hm hm'
  cases h with
  | before early quiet =>
      rcases Nat.lt_or_eq_of_le early with hlt | rfl
      · rw [hlow (by omega) (by omega)]
        exact .before hlt quiet.next
      · rw [hreq rfl]
        exact quiet.request
  | locked cs lock =>
      rw [hlow (by omega) (by omega)]
      have hns : s.ns = .start := by simp [State.ns, cs, lock]
      exact .start (k := 0) (by omega) (by simp [step, hns]) (by simp [step, hns, cs])
        (by simp [step, lock, cs])
  | @start k short cs cnt lock =>
      have hlock : (step s wrReq wrData).wrReqLock = true := by simp [step, lock, cs]
      rcases Nat.lt_or_eq_of_le short with hlt | rfl
      · obtain rfl : k = 0 := by omega
        have hne : s.stateCnt ≠ 1#16 := fun h => by rw [h] at cnt; simp at cnt
        have hns : s.ns = .start := by simp [State.ns, cs, hne]
        refine .start (k := 1) le_rfl (by simp [step, hns]) ?_ hlock
        simp only [step, cs, hns, ne_eq, not_true_eq_false, if_false]
        exact toNat_succ cnt (by decide)
      · have hone : s.stateCnt = 1#16 := BitVec.eq_of_toNat_eq cnt
        have hns : s.ns = .write := by simp [State.ns, cs, hone]
        exact .write (k := 0) (by omega) (by simp [step, hns]) (by simp [step, cs])
          (by simp [step, cs]) (by omega)
  | @write k short cs div cnt lock =>
      rw [hlow (by omega) (by omega)]
      have hlock : (step s false wrData).wrReqLock = false := by simp [step, cs]
      rcases Nat.lt_or_eq_of_le short with hlt | rfl
      · have hne : s.bitCnt ≠ 16#8 := fun h => by rw [h] at cnt; simp at cnt; omega
        have hns : s.ns = .write := by simp [State.ns, cs, hne]
        by_cases hlast : 19 ≤ s.divCnt.toNat
        · have hbit : (step s false wrData).bitCnt.toNat = s.bitCnt.toNat + 1 := by
            simp only [step, cs, hlast, if_true]
            exact toNat_succ rfl (by omega)
          have hdiv : (step s false wrData).divCnt.toNat = 0 := by simp [step, cs, hlast]
          exact .write (k := k + 1) (by omega) (by simp [step, hns]) (by omega) (by omega)
            fun _ => hlock
        · have hbit : (step s false wrData).bitCnt.toNat = s.bitCnt.toNat := by
            simp [step, cs, hlast]
          have hdiv : (step s false wrData).divCnt.toNat = s.divCnt.toNat + 1 := by
            simp only [step, cs, hlast, if_true, if_false]
            exact toNat_succ rfl (by omega)
          exact .write (k := k + 1) (by omega) (by simp [step, hns]) (by omega) (by omega)
            fun _ => hlock
      · have hall : s.bitCnt = 16#8 := BitVec.eq_of_toNat_eq (by simp; omega)
        have hns : s.ns = .ldacN := by simp [State.ns, cs, hall]
        exact .ldacN (k := 0) (by omega) (by simp [step, hns]) (by simp [step, hns, cs]) hlock
  | @ldacN k short cs cnt lock =>
      rw [hlow (by omega) (by omega)]
      have hlock : (step s false wrData).wrReqLock = false := by simp [step, cs, lock]
      rcases Nat.lt_or_eq_of_le short with hlt | rfl
      · have hne : s.stateCnt ≠ 20#16 := fun h => by rw [h] at cnt; simp at cnt; omega
        have hns : s.ns = .ldacN := by simp [State.ns, cs, hne]
        refine .ldacN (k := k + 1) hlt (by simp [step, hns]) ?_ hlock
        simp only [step, cs, hns, ne_eq, not_true_eq_false, if_false]
        exact toNat_succ cnt (by omega)
      · have hall : s.stateCnt = 20#16 := BitVec.eq_of_toNat_eq cnt
        have hns : s.ns = .over := by simp [State.ns, cs, hall]
        exact .finish (k := 0) (by omega) (by simp [step, hns]) (by simp [step, hns, cs]) hlock
  | @finish k short cs cnt lock =>
      rw [hlow (by omega) (by omega)]
      have hlock : (step s false wrData).wrReqLock = false := by simp [step, cs, lock]
      rcases Nat.lt_or_eq_of_le short with hlt | rfl
      · have hne : s.stateCnt ≠ 10#16 := fun h => by rw [h] at cnt; simp at cnt; omega
        have hns : s.ns = .over := by simp [State.ns, cs, hne]
        refine .finish (k := k + 1) hlt (by simp [step, hns]) ?_ hlock
        simp only [step, cs, hns, ne_eq, not_true_eq_false, if_false]
        exact toNat_succ cnt (by omega)
      · have hall : s.stateCnt = 10#16 := BitVec.eq_of_toNat_eq cnt
        have hns : s.ns = .idle := by simp [State.ns, cs, hall]
        exact .after (by omega) ⟨by simp [step, hns], hlock, by simp [step, pins, hns]⟩
  | after late quiet =>
      rw [hlow (by omega) (by omega)]
      exact .after (by omega) quiet.next

theorem At.quiet (h : At s m) (hm : 360 ≤ m) : Quiet s := by
  cases h with
  | after _ quiet => exact quiet
  | before => omega
  | locked => omega
  | start => omega
  | write => omega
  | ldacN => omega
  | finish => omega

end Ad5328Core

namespace Ad5328Top

open Clocked

variable {s s' : State} {i : Input} {v : BitVec 16}

/-! ### One clock -/

/-- The driver hands a word over in these states. -/
def Writes : Ad5328Drive.Phase → Prop
  | .configLdac | .configGain | .set => True
  | .idle | .wait | .over => False

/-- The word of a state. -/
def wordOf (cs : Ad5328Drive.Phase) (dacValue : BitVec 16) : BitVec 16 :=
  match cs with
  | .configLdac => Ad5328Drive.ldacWord
  | .configGain => Ad5328Drive.gainWord
  | .idle | .wait | .set | .over => dacValue

/-- The state behind a write. -/
def behind : Ad5328Drive.Phase → Ad5328Drive.Phase
  | .configLdac => .configGain
  | .idle | .configGain | .wait | .set | .over => .wait

/-- The states that power-up reaches. A request that is accepted in the third clock of `WAIT` is handed
over twice, and its write is then three clocks ahead. -/
inductive Reached (s : State) : Prop
  | cold (cs : s.drive.cs = .idle) (cnt : s.drive.stateCnt.toNat = 0) (wrReq : s.drive.wrReq = false)
      (core : s.core.cs = .idle) (lock : s.core.wrReqLock = false) (ready : s.core.ready = false)
  | warm (cs : s.drive.cs = .idle) (cnt : s.drive.stateCnt.toNat = 1) (wrReq : s.drive.wrReq = false)
      (core : Ad5328Core.Quiet s.core)
  | busy {ahead : ℕ} (few : ahead = 0 ∨ ahead = 3) (cs : Writes s.drive.cs)
      (cnt : s.drive.stateCnt.toNat ≤ 800)
      (wrReq : s.drive.wrReq = true ↔ s.drive.stateCnt.toNat = 3 ∨ s.drive.stateCnt.toNat + ahead = 3)
      (core : Ad5328Core.At s.core (s.drive.stateCnt.toNat + ahead))
  | wait (cs : s.drive.cs = .wait) (wrReq : s.drive.wrReq = false) (core : Ad5328Core.Quiet s.core)

theorem reached_reset (s : State) : Reached s.reset := .cold rfl rfl rfl rfl rfl rfl

/-- What one clock does to the driver. -/
inductive Moves (s : State) (i : Input) (s' : State) : Prop
  | wakes (cs : s.drive.cs = .idle) (cnt : s.drive.stateCnt.toNat = 0) (cs' : s'.drive.cs = .idle)
      (cnt' : s'.drive.stateCnt.toNat = 1) (handed' : s'.handed = none)
  | configures (cs : s.drive.cs = .idle) (cnt : s.drive.stateCnt.toNat = 1)
      (cs' : s'.drive.cs = .configLdac) (cnt' : s'.drive.stateCnt.toNat = 0)
      (handed' : s'.handed = none)
  | writes (cs : Writes s.drive.cs) (cnt : s.drive.stateCnt.toNat < 800)
      (cs' : s'.drive.cs = s.drive.cs)
      (cnt' : s'.drive.stateCnt.toNat = s.drive.stateCnt.toNat + 1)
      (handed' : s'.handed =
        if s.drive.stateCnt.toNat = 2 then some (wordOf s.drive.cs i.dacValue) else none)
  | ends (cs : Writes s.drive.cs) (cnt : s.drive.stateCnt.toNat = 800)
      (cs' : s'.drive.cs = behind s.drive.cs) (cnt' : s'.drive.stateCnt.toNat = 0)
      (handed' : s'.handed = none)
  | waits (cs : s.drive.cs = .wait) (quiet : i.dacSet = false) (cs' : s'.drive.cs = .wait)
      (handed' : s'.handed = none)
  | accepts (cs : s.drive.cs = .wait) (request : i.dacSet = true) (cs' : s'.drive.cs = .set)
      (cnt' : s'.drive.stateCnt.toNat = 0)
      (handed' : s'.handed = if s.drive.stateCnt.toNat = 2 then some i.dacValue else none)

theorem handed_step : (step s i).handed =
    s.drive.request (s.drive.ns i.dacSet s.core.ready) i.dacValue := by
  cases h : s.drive.request (s.drive.ns i.dacSet s.core.ready) i.dacValue <;>
    simp [State.handed, step, Ad5328Drive.step, h]

theorem stateCnt_step_of_same (hns : s.drive.ns i.dacSet s.core.ready = s.drive.cs)
    (hcnt : s.drive.stateCnt.toNat + 1 < 2 ^ 16) :
    (step s i).drive.stateCnt.toNat = s.drive.stateCnt.toNat + 1 := by
  simp only [step, Ad5328Drive.step, hns, ne_eq, not_true_eq_false, if_false]
  exact Ad5328Core.toNat_succ rfl hcnt

theorem stateCnt_step_of_ne (hns : s.drive.cs ≠ s.drive.ns i.dacSet s.core.ready) :
    (step s i).drive.stateCnt.toNat = 0 := by
  simp [step, Ad5328Drive.step, hns]

theorem stateCnt_eq_two : s.drive.stateCnt = 2 ↔ s.drive.stateCnt.toNat = 2 :=
  ⟨fun h => by rw [h]; rfl, fun h => BitVec.eq_of_toNat_eq h⟩

theorem request_writes {cs : Ad5328Drive.Phase} (hcs : Writes cs) :
    s.drive.request cs v = if s.drive.stateCnt.toNat = 2 then some (wordOf cs v) else none := by
  cases cs <;> simp only [Writes] at hcs <;>
    simp only [Ad5328Drive.State.request, stateCnt_eq_two, wordOf]

/-- **One clock of the driver.** -/
theorem Reached.moves (h : Reached s) (i : Input) : Moves s i (step s i) := by
  cases h with
  | cold cs cnt wrReq core lock ready =>
      have hns : s.drive.ns i.dacSet s.core.ready = .idle := by
        simp [Ad5328Drive.State.ns, cs, ready]
      refine .wakes cs cnt hns ?_ (by rw [handed_step, hns]; rfl)
      rw [stateCnt_step_of_same (hns.trans cs.symm) (by omega), cnt]
  | warm cs cnt wrReq core =>
      have hns : s.drive.ns i.dacSet s.core.ready = .configLdac := by
        simp [Ad5328Drive.State.ns, cs, core.ready]
      refine .configures cs cnt hns (stateCnt_step_of_ne (by rw [hns, cs]; decide)) ?_
      rw [handed_step, hns, request_writes (show Writes .configLdac from trivial), if_neg (by omega)]
  | busy few cs cnt wrReq core =>
      rcases Nat.lt_or_eq_of_le cnt with hlt | hlast
      · have hns : s.drive.ns i.dacSet s.core.ready = s.drive.cs := by
          have hmore : ¬ 800 ≤ s.drive.stateCnt.toNat := Nat.not_le.2 hlt
          cases hcs : s.drive.cs <;> simp [hcs, Writes] at cs <;>
            simp [Ad5328Drive.State.ns, hcs, hmore]
        refine .writes cs hlt hns (stateCnt_step_of_same hns (by omega)) ?_
        rw [handed_step, hns, request_writes cs]
      · have hready := (core.quiet (by omega)).ready
        have hns : s.drive.ns i.dacSet s.core.ready = behind s.drive.cs := by
          cases hcs : s.drive.cs <;> simp [hcs, Writes] at cs <;>
            simp [Ad5328Drive.State.ns, hcs, hready, hlast, behind]
        refine .ends cs hlast hns (stateCnt_step_of_ne ?_) ?_
        · rw [hns]
          cases hcs : s.drive.cs <;> simp [hcs, Writes] at cs <;> simp [behind]
        · have hne : ¬ s.drive.stateCnt = 2 := fun h => by
            rw [stateCnt_eq_two] at h
            omega
          rw [handed_step, hns]
          cases hcs : s.drive.cs <;> simp [hcs, Writes] at cs <;>
            simp only [behind, Ad5328Drive.State.request, if_neg hne]
  | wait cs wrReq core =>
      cases hset : i.dacSet with
      | false =>
          have hns : s.drive.ns i.dacSet s.core.ready = .wait := by
            simp [Ad5328Drive.State.ns, cs, hset]
          exact .waits cs hset hns (by rw [handed_step, hns]; rfl)
      | true =>
          have hns : s.drive.ns i.dacSet s.core.ready = .set := by
            simp [Ad5328Drive.State.ns, cs, hset, core.ready]
          refine .accepts cs hset hns (stateCnt_step_of_ne (by rw [hns, cs]; decide)) ?_
          rw [handed_step, hns, request_writes (show Writes .set from trivial)]
          rfl

theorem handed_isSome : s.handed.isSome = s.drive.wrReq := by
  cases h : s.drive.wrReq <;> simp [State.handed, h]

theorem wrReq_of_none (h : s.handed = none) : s.drive.wrReq = false := by
  rw [← handed_isSome, h]
  rfl

theorem wrReq_of_ite {p : Prop} [Decidable p] {x : BitVec 16}
    (h : s.handed = if p then some x else none) : s.drive.wrReq = true ↔ p := by
  rw [← handed_isSome, h]
  by_cases hp : p <;> simp [hp]

theorem core_quiet_step (h : Ad5328Core.Quiet s.core) (hlow : s.drive.wrReq = false) :
    Ad5328Core.Quiet (step s i).core := by
  change Ad5328Core.Quiet (Ad5328Core.step s.core s.drive.wrReq s.drive.wrData)
  rw [hlow]
  exact h.next

theorem Writes.behind {cs : Ad5328Drive.Phase} (h : Writes cs) :
    Writes (behind cs) ∨ behind cs = .wait := by
  cases cs <;> simp [Writes, Ad5328Top.behind] at h ⊢

theorem Reached.of_wait (h : Reached s) (hcs : s.drive.cs = .wait) :
    s.drive.wrReq = false ∧ Ad5328Core.Quiet s.core := by
  cases h with
  | cold cs => simp [hcs] at cs
  | warm cs => simp [hcs] at cs
  | busy few cs => simp [hcs, Writes] at cs
  | wait _ wrReq core => exact ⟨wrReq, core⟩

theorem Reached.of_writes (h : Reached s) (hcs : Writes s.drive.cs) :
    ∃ ahead, (ahead = 0 ∨ ahead = 3) ∧
      (s.drive.wrReq = true ↔
        s.drive.stateCnt.toNat = 3 ∨ s.drive.stateCnt.toNat + ahead = 3) ∧
      Ad5328Core.At s.core (s.drive.stateCnt.toNat + ahead) := by
  cases h with
  | cold cs => simp [cs, Writes] at hcs
  | warm cs => simp [cs, Writes] at hcs
  | busy few _ _ wrReq core => exact ⟨_, few, wrReq, core⟩
  | wait cs => simp [cs, Writes] at hcs

theorem Reached.of_idle (h : Reached s) (hcs : s.drive.cs = .idle) :
    s.drive.wrReq = false ∧ s.core.cs = .idle ∧ s.core.wrReqLock = false := by
  cases h with
  | cold _ _ wrReq core lock => exact ⟨wrReq, core, lock⟩
  | warm _ _ wrReq core => exact ⟨wrReq, core.cs, core.lock⟩
  | busy few cs => simp [hcs, Writes] at cs
  | wait cs => simp [hcs] at cs

theorem core_quiet_of_idle (hlow : s.drive.wrReq = false) (hcs : s.core.cs = .idle)
    (hlock : s.core.wrReqLock = false) : Ad5328Core.Quiet (step s i).core := by
  have hns : s.core.ns = .idle := by simp [Ad5328Core.State.ns, hcs, hlock]
  constructor
  · exact hns
  · simp [step, Ad5328Core.step, hcs, hlock, hlow]
  · simp [step, Ad5328Core.step, Ad5328Core.pins, hns]

/-- **Both machines stay in step.** -/
theorem reached_step (h : Reached s) (i : Input) : Reached (step s i) := by
  cases h.moves i with
  | wakes cs cnt cs' cnt' handed' =>
      obtain ⟨hlow, hidle, hlock⟩ := h.of_idle cs
      exact .warm cs' cnt' (wrReq_of_none handed') (core_quiet_of_idle hlow hidle hlock)
  | configures cs cnt cs' cnt' handed' =>
      obtain ⟨hlow, hidle, hlock⟩ := h.of_idle cs
      have hwrReq := wrReq_of_none handed'
      exact .busy (.inl rfl) (by rw [cs']; trivial) (by omega) (by rw [hwrReq, cnt']; decide)
        (.before (by omega) (core_quiet_of_idle hlow hidle hlock))
  | writes cs cnt cs' cnt' handed' =>
      obtain ⟨ahead, few, wrReq, core⟩ := h.of_writes cs
      have hwrReq := wrReq_of_ite handed'
      refine .busy few (by rwa [cs']) (by omega) (hwrReq.trans (by omega)) ?_
      rw [cnt', Nat.add_right_comm]
      exact core.next (fun hthree => wrReq.2 (.inr hthree)) fun hreq => by
        rcases few with rfl | rfl <;> rcases wrReq.1 hreq with h | h <;> omega
  | ends cs cnt cs' cnt' handed' =>
      obtain ⟨ahead, -, wrReq, core⟩ := h.of_writes cs
      have hlow : s.drive.wrReq = false := by
        rw [Bool.eq_false_iff]
        intro hreq
        rcases wrReq.1 hreq with h | h <;> omega
      have hcore := core_quiet_step (i := i) (core.quiet (by omega)) hlow
      have hwrReq := wrReq_of_none handed'
      rcases cs.behind with hmore | hlast
      · exact .busy (.inl rfl) (by rwa [cs']) (by omega) (by rw [hwrReq, cnt']; decide)
          (.before (by omega) hcore)
      · exact .wait (cs'.trans hlast) hwrReq hcore
  | waits cs quiet cs' handed' =>
      obtain ⟨hlow, hcore⟩ := h.of_wait cs
      exact .wait cs' (wrReq_of_none handed') (core_quiet_step hcore hlow)
  | accepts cs request cs' cnt' handed' =>
      obtain ⟨hlow, hcore⟩ := h.of_wait cs
      have hwrReq := wrReq_of_ite handed'
      have hnext := core_quiet_step (i := i) hcore hlow
      by_cases htwo : s.drive.stateCnt.toNat = 2
      · exact .busy (.inr rfl) (by rw [cs']; trivial) (by omega) (hwrReq.trans (by omega))
          (.before (by omega) hnext)
      · exact .busy (.inl rfl) (by rw [cs']; trivial) (by omega) (hwrReq.trans (by omega))
          (.before (by omega) hnext)

/-! ### The word that is handed over last -/

/-- The last word that the serializer received. -/
def State.inForce (s : State) : BitVec 16 := s.handed.getD s.core.wrDataLock

/-- The word that is handed over last if no request is accepted any more and `dac_value` stays `v`. -/
def State.outlook (s : State) (v : BitVec 16) : BitVec 16 :=
  match s.drive.cs with
  | .idle | .configLdac => Ad5328Drive.gainWord
  | .configGain => if s.drive.stateCnt.toNat ≤ 2 then Ad5328Drive.gainWord else s.inForce
  | .set => if s.drive.stateCnt.toNat ≤ 2 then v else s.inForce
  | .wait | .over => s.inForce

/-- The clocks until the driver waits. -/
def State.remaining (s : State) : ℕ :=
  match s.drive.cs with
  | .idle => 1604 - s.drive.stateCnt.toNat
  | .configLdac => 1602 - s.drive.stateCnt.toNat
  | .configGain | .set => 801 - s.drive.stateCnt.toNat
  | .wait | .over => 0

theorem inForce_step : (step s i).inForce = (step s i).handed.getD s.inForce := by
  unfold State.inForce
  congr 1
  cases hreq : s.drive.wrReq <;> simp [State.handed, step, Ad5328Core.step, hreq]

theorem remaining_step (h : Reached s) (hquiet : i.dacSet = false) :
    (step s i).remaining = s.remaining - 1 := by
  cases h.moves i with
  | wakes cs cnt cs' cnt' => simp [State.remaining, cs, cnt, cs', cnt']
  | configures cs cnt cs' cnt' => simp [State.remaining, cs, cnt, cs', cnt']
  | writes cs cnt cs' cnt' =>
      unfold State.remaining
      rw [cs', cnt']
      cases hcs : s.drive.cs <;> simp only [hcs, Writes] at cs <;> simp only [] <;> omega
  | ends cs cnt cs' cnt' =>
      unfold State.remaining
      rw [cs', cnt', cnt]
      cases hcs : s.drive.cs <;> simp only [hcs, Writes] at cs <;> simp only [behind]
  | waits cs quiet cs' => simp [State.remaining, cs, cs']
  | accepts cs request => rw [hquiet] at request; cases request

theorem wait_of_remaining (h : Reached s) (hzero : s.remaining = 0) : s.drive.cs = .wait := by
  cases h with
  | cold cs cnt => simp [State.remaining, cs, cnt] at hzero
  | warm cs cnt => simp [State.remaining, cs, cnt] at hzero
  | busy few cs cnt =>
      unfold State.remaining at hzero
      cases hcs : s.drive.cs <;> simp only [hcs, Writes] at cs hzero <;> omega
  | wait cs => exact cs

theorem outlook_configLdac (hcs : s.drive.cs = .configLdac) :
    s.outlook v = Ad5328Drive.gainWord := by
  rw [State.outlook, hcs]

theorem outlook_writes (hcs : Writes s.drive.cs) (hne : s.drive.cs ≠ .configLdac) :
    s.outlook v = if s.drive.stateCnt.toNat ≤ 2 then wordOf s.drive.cs v else s.inForce := by
  unfold State.outlook
  cases h : s.drive.cs <;> simp [h, Writes] at hcs hne ⊢ <;> rfl

theorem behind_of_ne {cs : Ad5328Drive.Phase} (hne : cs ≠ .configLdac) : behind cs = .wait := by
  cases cs <;> simp at hne <;> rfl

/-- No request is accepted, and the word in `dac_value` stays. -/
theorem outlook_step (h : Reached s) (hvalue : i.dacValue = v)
    (hquiet : s.drive.cs = .wait → i.dacSet = false) : (step s i).outlook v = s.outlook v := by
  cases h.moves i with
  | wakes cs cnt cs' cnt' => simp [State.outlook, cs, cs']
  | configures cs cnt cs' cnt' => simp [State.outlook, cs, cs']
  | writes cs cnt cs' cnt' handed' =>
      by_cases hldac : s.drive.cs = .configLdac
      · rw [outlook_configLdac hldac, outlook_configLdac (cs'.trans hldac)]
      rw [outlook_writes cs hldac, outlook_writes (by rwa [cs']) (by rwa [cs']), cs', cnt',
        inForce_step, handed', hvalue]
      rcases Nat.lt_trichotomy s.drive.stateCnt.toNat 2 with hlt | heq | hgt
      · rw [if_pos (by omega), if_pos (by omega)]
      · rw [if_neg (by omega), if_pos heq, if_pos (by omega), Option.getD_some]
      · rw [if_neg (by omega), if_neg (by omega), if_neg (by omega), Option.getD_none]
  | ends cs cnt cs' cnt' handed' =>
      by_cases hldac : s.drive.cs = .configLdac
      · rw [outlook_configLdac hldac]
        simp [State.outlook, cs', hldac, behind, cnt']
      · rw [outlook_writes cs hldac, if_neg (by omega)]
        simp [State.outlook, cs', behind_of_ne hldac, inForce_step, handed']
  | waits cs quiet cs' handed' =>
      simp [State.outlook, cs, cs', inForce_step, handed']
  | accepts cs request =>
      rw [hquiet cs] at request
      cases request

theorem outlook_accepted (h : Reached s) (hcs : s.drive.cs = .wait) (hset : i.dacSet = true) :
    (step s i).outlook v = v := by
  cases h.moves i with
  | wakes cs => simp [hcs] at cs
  | configures cs => simp [hcs] at cs
  | writes cs => simp [hcs, Writes] at cs
  | ends cs => simp [hcs, Writes] at cs
  | waits cs quiet => simp [hset] at quiet
  | accepts cs request cs' cnt' => simp [State.outlook, cs', cnt']

/-! ### Runs from power-up -/

def run (s : State) (input : ℕ → Input) (t : ℕ) : State := trace step s.reset input t

/-- The last word that the driver has handed over before clock `t`. -/
def lastHanded (s : State) (input : ℕ → Input) (t : ℕ) : Option (BitVec 16) :=
  (logged step s.reset input (fun s _ => s.handed) 0 t).getLast?

/-- The last pulse of `dac_set` comes in clock `p`, and `dac_value` is held from there on. -/
structure LastRequest (input : ℕ → Input) (p : ℕ) (v : BitVec 16) : Prop where
  set : (input p).dacSet = true
  quiet : ∀ c, p < c → (input c).dacSet = false
  held : ∀ c, p ≤ c → (input c).dacValue = v

variable {input : ℕ → Input} {p : ℕ}

theorem reached_run (s : State) (t : ℕ) : Reached (run s input t) :=
  trace_invariant Reached (reached_reset s) (fun _ _ h => reached_step h _) t

theorem lastHanded_succ (s : State) (t : ℕ) :
    lastHanded s input (t + 1) = (run s input t).handed.or (lastHanded s input t) := by
  unfold lastHanded
  rw [logged_succ, List.getLast?_append, Nat.zero_add]
  cases h : (run s input t).handed <;> simp only [run] at h <;> simp [h]

/-- No word has been handed over yet. -/
def State.Fresh (s : State) : Prop :=
  s.drive.cs = .idle ∨ s.drive.cs = .configLdac ∧ s.drive.stateCnt.toNat ≤ 2

theorem lastHanded_run (s : State) (t : ℕ) :
    (run s input t).Fresh ∨ lastHanded s input (t + 1) = some (run s input t).inForce := by
  induction t with
  | zero => exact .inl (.inl rfl)
  | succ t ih =>
      rw [lastHanded_succ]
      change (step (run s input t) (input t)).Fresh ∨
        (step (run s input t) (input t)).handed.or _ =
          some (step (run s input t) (input t)).inForce
      rw [inForce_step]
      rcases ih with hfresh | hlast
      · cases (reached_run s t).moves (input t) with
        | wakes cs cnt cs' => exact .inl (.inl cs')
        | configures cs cnt cs' cnt' => exact .inl (.inr ⟨cs', by omega⟩)
        | writes cs cnt cs' cnt' handed' =>
            rcases hfresh with hidle | ⟨hldac, hfew⟩
            · simp [hidle, Writes] at cs
            · rcases Nat.lt_or_eq_of_le hfew with hlt | heq
              · exact .inl (.inr ⟨cs'.trans hldac, by omega⟩)
              · rw [handed', if_pos heq]
                exact .inr rfl
        | ends cs cnt =>
            rcases hfresh with hidle | ⟨hldac, hfew⟩
            · simp [hidle, Writes] at cs
            · omega
        | waits cs => simp [State.Fresh, cs] at hfresh
        | accepts cs => simp [State.Fresh, cs] at hfresh
      · rw [hlast]
        cases (step (run s input t) (input t)).handed with
        | none => exact .inr rfl
        | some x => exact .inr rfl

section LastRequest

variable (h : LastRequest input p v) (s : State)

include h

theorem outlook_run (n : ℕ) :
    (run s input (p + 1 + n)).outlook v = (run s input (p + 1)).outlook v := by
  induction n with
  | zero => rfl
  | succ n ih =>
      rw [← ih]
      exact outlook_step (reached_run s (p + 1 + n)) (h.held (p + 1 + n) (by omega))
        fun _ => h.quiet (p + 1 + n) (by omega)

theorem remaining_run (n : ℕ) :
    (run s input (p + 1 + n)).remaining = (run s input (p + 1)).remaining - n := by
  induction n with
  | zero => rfl
  | succ n ih =>
      rw [Nat.sub_succ', ← ih]
      exact remaining_step (reached_run s (p + 1 + n)) (h.quiet (p + 1 + n) (by omega))

/-- Once the driver waits, it has handed over what the clock behind the last pulse foresaw. -/
theorem lastHanded_settled (n : ℕ) (hn : (run s input (p + 1)).remaining ≤ n) :
    lastHanded s input (p + 1 + n + 1) = some ((run s input (p + 1)).outlook v) := by
  have hwait : (run s input (p + 1 + n)).drive.cs = .wait := by
    refine wait_of_remaining (reached_run s _) ?_
    rw [remaining_run h s n]
    omega
  have hlog : (run s input (p + 1 + n)).Fresh ∨ lastHanded s input (p + 1 + n + 1) = _ :=
    lastHanded_run s (p + 1 + n)
  rcases hlog with hfresh | hlast
  · simp [State.Fresh, hwait] at hfresh
  · rw [hlast, ← outlook_run h s n, State.outlook, hwait]

/-- The last pulse is answered if the driver waits for it, and changes nothing otherwise. -/
theorem outlook_pulse :
    (run s input (p + 1)).outlook v =
      if (run s input p).drive.cs = .wait then v else (run s input p).outlook v := by
  change (step (run s input p) (input p)).outlook v = _
  by_cases hcs : (run s input p).drive.cs = .wait
  · rw [if_pos hcs, outlook_accepted (reached_run s p) hcs h.set]
  · rw [if_neg hcs]
    exact outlook_step (reached_run s p) (h.held p le_rfl) fun hwait => absurd hwait hcs

theorem eventually_iff :
    (∃ T, ∀ t, T ≤ t → lastHanded s input t = some v) ↔
      (run s input (p + 1)).outlook v = v := by
  constructor
  · rintro ⟨T, hT⟩
    have hlast := lastHanded_settled h s ((run s input (p + 1)).remaining + T) (by omega)
    rw [hT _ (by omega)] at hlast
    exact (Option.some.inj hlast).symm
  · intro hout
    refine ⟨p + 1 + (run s input (p + 1)).remaining + 1, fun t ht => ?_⟩
    obtain ⟨n, rfl⟩ : ∃ n, t = p + 1 + n + 1 := ⟨t - p - 2, by omega⟩
    rw [lastHanded_settled h s n (by omega), hout]

end LastRequest

/-- **The last request.** It is handed over last exactly if the driver waits for it, or if it asks for
the word that is handed over last without it. -/
theorem lastHanded_iff (s : State) (h : LastRequest input p v) :
    (∃ T, ∀ t, T ≤ t → lastHanded s input t = some v) ↔
      (run s input p).drive.cs = .wait ∨ (run s input p).outlook v = v := by
  rw [eventually_iff h s, outlook_pulse h s]
  by_cases hcs : (run s input p).drive.cs = .wait <;> simp [hcs]

/-- One pulse in clock `p`. -/
def pulse (p : ℕ) (v : BitVec 16) (c : ℕ) : Input := ⟨c == p, v⟩

theorem lastRequest_pulse (p : ℕ) (v : BitVec 16) : LastRequest (pulse p v) p v where
  set := beq_self_eq_true p
  quiet := fun c hc => by simp [pulse, Nat.ne_of_gt hc]
  held := fun _ _ => rfl

/-- Registers at zero. -/
def dark : State where
  drive := .reset
  core := Ad5328Core.State.reset ⟨.idle, 0, 0, 0, false, 0, false, false, false, false, false⟩

theorem wait_pulse (v : BitVec 16) : (run dark (pulse 1604 v) 1604).drive.cs = .wait := by
  have hrun : ∀ t ≤ 1604, (run dark (pulse 1604 v) t).remaining = 1604 - t := by
    intro t
    induction t with
    | zero => exact fun _ => rfl
    | succ t ih =>
        intro hle
        have hquiet : (pulse 1604 v t).dacSet = false := by
          simp only [pulse, beq_eq_false_iff_ne]
          omega
        have hreached : Reached (run dark (pulse 1604 v) t) := reached_run dark t
        have hstep := remaining_step hreached hquiet
        rw [ih (by omega)] at hstep
        exact hstep.trans (by omega)
  exact wait_of_remaining (reached_run dark 1604) (hrun 1604 le_rfl)

theorem lastHanded_pulse :
    ∃ T, ∀ t, T ≤ t → lastHanded dark (pulse 1604 0x0fff) t = some 0x0fff :=
  (lastHanded_iff dark (lastRequest_pulse 1604 0x0fff)).2 (.inl (wait_pulse _))

/-- A request during the configuration is lost. -/
theorem not_handed_early :
    ¬ ∀ (s : State) (input : ℕ → Input) (p : ℕ) (v : BitVec 16), LastRequest input p v →
      ∃ T, ∀ t, T ≤ t → lastHanded s input t = some v := by
  intro hall
  have hrequest := lastRequest_pulse 0 0x0fff
  have hout := (eventually_iff hrequest dark).1 (hall _ _ _ _ hrequest)
  rw [outlook_pulse hrequest dark] at hout
  exact absurd hout (by decide)

end Ad5328Top

end SingleScan
