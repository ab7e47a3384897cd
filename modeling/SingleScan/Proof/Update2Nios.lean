import SingleScan.Frame

/-!
# What the frame sender sends

The kind of a frame is fixed when the machine leaves `IDLE`, and only two events rewrite it before
the closing word: the FIFO reaches 811 words during a status frame, or the timer stands at 100 during
a distance frame whose FIFO falls below 811 words. Without them, and with a sink that is ready where
the machine does not wait for it, each trip from `IDLE` to `IDLE` sends one frame.
-/

namespace SingleScan.Update2Nios

open Clocked

/-! ### The kind of a frame -/

/-- A frame has begun, and its closing word is not out yet. -/
def State.inFrame (s : State) : Bool :=
  s.cs == .head || s.cs == .dataLen || s.cs == .data || s.cs == .dly || s.cs == .checksum

/-- The step does not touch the kind of the frame being sent. -/
def Undisturbed (s : State) (i : Input) : Prop :=
  s.inFrame = true → s.cs ≠ .checksum →
    (s.tx = Kind.status.tx → i.fifoUsedw.toNat < cycleDataLen) ∧
      (s.tx = Kind.distance.tx → cycleDataLen ≤ i.fifoUsedw.toNat ∨ s.timerCnt ≠ 100)

theorem step_tx (s : State) (i : Input) : (step s i).tx = s.nextTx i := rfl

theorem step_cs (s : State) (i : Input) : (step s i).cs = s.ns i := rfl

/-- In a frame the kind is always one of the two. -/
def Typed (s : State) : Prop := s.inFrame = true → ∃ kind : Kind, s.tx = kind.tx

theorem nextTx_of_head {s : State} {i : Input} (hcs : s.cs = .idle) (hns : s.ns i = .head) :
    ∃ kind : Kind, s.nextTx i = kind.tx := by
  by_cases hlevel : cycleDataLen ≤ i.fifoUsedw.toNat
  · exact ⟨.distance, by rw [State.nextTx, if_pos hlevel]; rfl⟩
  · have htimer : s.timerFlag = true := by
      by_contra hoff
      simp [State.ns, hcs, hoff, cycleDataLen] at hns hlevel
      omega
    exact ⟨.status, by rw [State.nextTx, if_neg hlevel, if_pos htimer]; rfl⟩

/-- Before the closing word the next kind is one of the two if the present one is. -/
theorem nextTx_of_inFrame {s : State} {i : Input} {kind : Kind} (hcs : s.cs ≠ .checksum)
    (hkind : s.tx = kind.tx) :
    ∃ kind' : Kind, s.nextTx i = kind'.tx ∧
      (kind' = kind ↔
        (kind = .status → i.fifoUsedw.toNat < cycleDataLen) ∧
          (kind = .distance → cycleDataLen ≤ i.fifoUsedw.toNat ∨ s.timerCnt ≠ 100)) := by
  by_cases hlevel : cycleDataLen ≤ i.fifoUsedw.toNat
  · refine ⟨.distance, by rw [State.nextTx, if_pos hlevel]; rfl, ?_⟩
    cases kind <;> simp [hlevel]
  · by_cases htimer : s.timerFlag = true
    · refine ⟨.status, by rw [State.nextTx, if_neg hlevel, if_pos htimer]; rfl, ?_⟩
      have hcnt : s.timerCnt = 100 := by simpa [State.timerFlag] using htimer
      cases kind <;> simp [hlevel, hcnt]; omega
    · refine ⟨kind, by rw [State.nextTx, if_neg hlevel, if_neg htimer, if_neg hcs, hkind], ?_⟩
      have hcnt : s.timerCnt ≠ 100 := by simpa [State.timerFlag] using htimer
      simp only [true_iff]
      exact ⟨fun _ => by omega, fun _ => .inr hcnt⟩

theorem typed_step (s : State) (i : Input) (h : Typed s) : Typed (step s i) := by
  intro hin
  rw [step_tx]
  rw [State.inFrame, step_cs] at hin
  cases hcs : s.cs with
  | idle =>
      apply nextTx_of_head hcs
      simp only [State.ns, hcs] at hin ⊢
      split at hin <;> simp_all
  | checksum =>
      simp only [State.ns, hcs] at hin
      split at hin <;> simp at hin
  | «over» =>
      simp only [State.ns, hcs] at hin
      split at hin <;> simp at hin
  | head | dataLen | data | dly =>
      obtain ⟨kind, hkind⟩ := h (by simp [State.inFrame, hcs])
      obtain ⟨kind', hkind', _⟩ := nextTx_of_inFrame (i := i) (by simp [hcs]) hkind
      exact ⟨kind', hkind'⟩

theorem typed_run (input : ℕ → Input) (t : ℕ) : Typed (run input t) :=
  trace_invariant Typed (fun hin => by simp [State.inFrame, State.reset] at hin)
    (fun s t => typed_step s (input t)) t

theorem kind_tx_injective {kind kind' : Kind} (h : kind.tx = kind'.tx) : kind = kind' := by
  cases kind <;> cases kind' <;> first | rfl | exact absurd h (by decide)

/-- **The step lemma.** Before the closing word a step keeps the kind exactly when it is
undisturbed. -/
theorem step_tx_eq_iff {s : State} (i : Input) (htyped : Typed s) (hin : s.inFrame = true)
    (hcs : s.cs ≠ .checksum) : (step s i).tx = s.tx ↔ Undisturbed s i := by
  obtain ⟨kind, hkind⟩ := htyped hin
  obtain ⟨kind', hkind', hiff⟩ := nextTx_of_inFrame (i := i) hcs hkind
  rw [step_tx, hkind', hkind]
  have hsame : kind'.tx = kind.tx ↔ kind' = kind :=
    ⟨kind_tx_injective, fun h => by rw [h]⟩
  have hname : ∀ k : Kind, s.tx = k.tx ↔ kind = k := by
    intro k
    rw [hkind]
    exact ⟨kind_tx_injective, fun h => by rw [h]⟩
  rw [hsame, hiff]
  simp [Undisturbed, hin, hcs, hname]

/-- From a step of the frame before the closing word the machine stays in it, behind the head. -/
theorem inFrame_step {s : State} (i : Input) (hin : s.inFrame = true) (hcs : s.cs ≠ .checksum) :
    (step s i).inFrame = true ∧ (step s i).cs ≠ .head := by
  rw [State.inFrame, step_cs]
  cases hphase : s.cs with
  | idle | «over» => simp [State.inFrame, hphase] at hin
  | checksum => exact absurd hphase hcs
  | head | dataLen => simp [State.ns, hphase]
  | data | dly =>
      simp only [State.ns, hphase]
      split <;> simp

/-- A frame is entered by its head, and left behind its closing word. -/
theorem inFrame_of_step {s : State} {i : Input} (hin : (step s i).inFrame = true)
    (hhead : (step s i).cs ≠ .head) : s.inFrame = true ∧ s.cs ≠ .checksum := by
  rw [State.inFrame, step_cs] at hin
  rw [step_cs] at hhead
  cases hphase : s.cs with
  | head | dataLen | data | dly => simp [State.inFrame, hphase]
  | idle | checksum | «over» =>
      simp only [State.ns, hphase] at hin hhead
      split at hin <;> simp_all

/-- The clocks `t₀` and `t₁` lie in one frame, and `t₀` is its head. -/
structure SameFrame (input : ℕ → Input) (t₀ t₁ : ℕ) : Prop where
  head : (run input t₀).cs = .head
  le : t₀ ≤ t₁
  behind : ∀ t, t₀ < t → t ≤ t₁ → (run input t).inFrame = true ∧ (run input t).cs ≠ .head

theorem SameFrame.inFrame {input : ℕ → Input} {t₀ t₁ : ℕ} (h : SameFrame input t₀ t₁) :
    (run input t₁).inFrame = true := by
  rcases h.le.eq_or_lt with rfl | hlt
  · simp [State.inFrame, h.head]
  · exact (h.behind t₁ hlt le_rfl).1

theorem SameFrame.succ {input : ℕ → Input} {t₀ t₁ : ℕ} (h : SameFrame input t₀ t₁)
    (hcs : (run input t₁).cs ≠ .checksum) : SameFrame input t₀ (t₁ + 1) := by
  refine ⟨h.head, Nat.le_succ_of_le h.le, fun t hlt hle => ?_⟩
  rcases Nat.le_succ_iff.mp hle with hle' | rfl
  · exact h.behind t hlt hle'
  · exact inFrame_step (input t₁) h.inFrame hcs

theorem exists_sameFrame {input : ℕ → Input} {t : ℕ} (hin : (run input t).inFrame = true) :
    ∃ t₀, SameFrame input t₀ t := by
  induction t with
  | zero => simp [run, trace, State.inFrame, State.reset] at hin
  | succ t ih =>
      by_cases hhead : (run input (t + 1)).cs = .head
      · exact ⟨t + 1, hhead, le_rfl, fun t' hlt hle => absurd hlt (by omega)⟩
      · obtain ⟨hprev, hcs⟩ := inFrame_of_step hin hhead
        obtain ⟨t₀, h⟩ := ih hprev
        exact ⟨t₀, h.succ hcs⟩

/-- **The kind of a frame.** It stays the same from the head to the closing word, in every frame of a
run, exactly when every step of the run is undisturbed. -/
theorem kind_constant_iff (input : ℕ → Input) :
    (∀ t₀ t₁, SameFrame input t₀ t₁ → (run input t₁).tx = (run input t₀).tx) ↔
      ∀ t, Undisturbed (run input t) (input t) := by
  constructor
  · intro hconstant t hin hcs
    obtain ⟨t₀, hframe⟩ := exists_sameFrame hin
    have hstep : (step (run input t) (input t)).tx = (run input t).tx :=
      (hconstant t₀ (t + 1) (hframe.succ hcs)).trans (hconstant t₀ t hframe).symm
    exact (step_tx_eq_iff (input t) (typed_run input t) hin hcs).mp hstep hin hcs
  · intro hquiet t₀ t₁ hframe
    obtain ⟨hhead, hle, hbehind⟩ := hframe
    induction t₁, hle using Nat.le_induction with
    | base => rfl
    | succ t₁ hle ih =>
        have hin := (hbehind (t₁ + 1) (by omega) le_rfl)
        obtain ⟨hprev, hcs⟩ := inFrame_of_step hin.1 hin.2
        have hstep := (step_tx_eq_iff (input t₁) (typed_run input t₁) hprev hcs).mpr (hquiet t₁)
        exact hstep.trans (ih fun t hlt hle' => hbehind t hlt (by omega))

/-- A rotation is complete in the clock in which the timer comes to 100, and the FIFO falls below 811
words when the frame empties it. -/
def race (t : ℕ) : Input where
  fifoRddata := 0
  fifoUsedw := if t < 99 then 0 else if t ≤ 102 then 811 else 810
  fpgaStatus := 0
  laserFifoInReady := true

theorem kind_not_constant :
    ¬ ∀ input : ℕ → Input, (∀ t, (input t).laserFifoInReady = true) →
      ∀ t₀ t₁, SameFrame input t₀ t₁ → (run input t₁).tx = (run input t₀).tx := by
  intro h
  have hframe : SameFrame race 100 104 := by
    refine ⟨by decide +kernel, by decide, fun t hlt hle => ?_⟩
    obtain rfl | rfl | rfl | rfl : t = 101 ∨ t = 102 ∨ t = 103 ∨ t = 104 := by omega
    all_goals decide +kernel
  exact absurd (h race (fun _ => rfl) 100 104 hframe) (by decide +kernel)

/-! ### The words of a frame -/

/-- The sink is ready in the clocks in which the machine does not wait for it: it holds back neither
the header, nor a word out of `pos_fifo`, nor the last word of a status frame, nor the closing
word. -/
def Sinks (s : State) (i : Input) : Prop :=
  match s.cs with
  | .head | .dataLen | .checksum => i.laserFifoInReady = true
  | .data =>
      i.laserFifoInReady = true ∨ (s.tx = Kind.status.tx ∧ s.txDataCnt.toNat + 1 < statusDataLen)
  | .idle | .dly | .over => True

/-- Where the payload of a frame comes from: a distance frame carries the popped words, and each word
of a status frame is a slice of `fpga_status` as it stood in one of the clocks of the frame. -/
def Carries (seen : BitVec 256 → Prop) (kind : Kind) (payload pops : List Word) : Prop :=
  match kind with
  | .distance => pops = payload
  | .status =>
      pops = [] ∧ ∀ (j : Nat) (hj : j < payload.length),
        ∃ σ, seen σ ∧ statusWord σ j = some payload[j]

/-- How far the frame is. -/
def Sent (seen : BitVec 256 → Prop) (kind : Kind) (acc pops : List Word) (s : State) : Prop :=
  match s.cs with
  | .idle =>
      ∃ f : Frame, f.kind = kind ∧ acc = f.words ∧ Carries seen kind f.payload pops ∧
        ∃ σ, seen σ ∧ f.alarms = σ.extractLsb' 128 3
  | .head => s.tx = kind.tx ∧ s.txDataCnt = 0 ∧ acc = [] ∧ pops = []
  | .dataLen => s.tx = kind.tx ∧ s.txDataCnt = 0 ∧ acc = kind.header.take 1 ∧ pops = []
  | .data =>
      s.tx = kind.tx ∧ s.txDataCnt.toNat < kind.dataLen ∧
        ∃ payload, acc = kind.header ++ payload ∧ Carries seen kind payload pops ∧
          payload.length = s.txDataCnt.toNat
  | .dly | .checksum =>
      s.tx = kind.tx ∧ ∃ payload, acc = kind.header ++ payload ∧ Carries seen kind payload pops ∧
        payload.length = kind.dataLen
  | .over => False

section Words

variable {s : State} {i : Input} {kind : Kind}

theorem txCommand_of_tx (htx : s.tx = kind.tx) : s.txCommand = kind.command.setWidth 32 :=
  congrArg Prod.fst htx

theorem txDataLen_of_tx (htx : s.tx = kind.tx) : s.txDataLen.toNat = kind.dataLen := by
  have hlen : s.txDataLen = BitVec.ofNat 16 kind.dataLen := congrArg Prod.snd htx
  cases kind <;> rw [hlen] <;> rfl

theorem dataLen_lt (kind : Kind) : kind.dataLen < 2 ^ 16 - 1 := by
  cases kind <;> decide

theorem step_tx_of_undisturbed (htx : s.tx = kind.tx) (hin : s.inFrame = true)
    (hcs : s.cs ≠ .checksum) (hquiet : Undisturbed s i) : (step s i).tx = kind.tx :=
  ((step_tx_eq_iff i (fun _ => ⟨kind, htx⟩) hin hcs).mpr hquiet).trans htx

theorem popped_of_ne_data (hcs : s.cs ≠ .data) : popped s i = none := by
  simp [popped, State.fifoRdreq, hcs]

theorem txCommand_of_distance (htx : s.tx = Kind.distance.tx) :
    s.txCommand = upDistanceData.setWidth 32 :=
  txCommand_of_tx htx

theorem txCommand_of_status (htx : s.tx = Kind.status.tx) :
    s.txCommand ≠ upDistanceData.setWidth 32 ∧ s.txCommand = upFpgaStatus.setWidth 32 := by
  rw [txCommand_of_tx htx]
  decide

theorem popped_of_status (htx : s.tx = Kind.status.tx) : popped s i = none := by
  simp [popped, State.fifoRdreq, (txCommand_of_status htx).1]

theorem laserFifoInData_head (htx : s.tx = kind.tx) (hcs : s.cs = .head) :
    s.laserFifoInData i = txHead ++ kind.command := by
  cases kind with
  | distance => rw [State.laserFifoInData, if_pos (txCommand_of_distance htx), hcs]; rfl
  | status =>
      obtain ⟨hne, heq⟩ := txCommand_of_status htx
      rw [State.laserFifoInData, if_neg hne, if_pos heq, hcs]; rfl

theorem laserFifoInData_dataLen (htx : s.tx = kind.tx) (hcs : s.cs = .dataLen) :
    s.laserFifoInData i = BitVec.ofNat 32 kind.dataLen := by
  cases kind with
  | distance => rw [State.laserFifoInData, if_pos (txCommand_of_distance htx), hcs]; rfl
  | status =>
      obtain ⟨hne, heq⟩ := txCommand_of_status htx
      rw [State.laserFifoInData, if_neg hne, if_pos heq, hcs]; rfl

theorem laserFifoInData_checksum (htx : s.tx = kind.tx) (hcs : s.cs = .checksum) :
    s.laserFifoInData i = kind.closing (i.fpgaStatus.extractLsb' 128 3) := by
  cases kind with
  | distance => rw [State.laserFifoInData, if_pos (txCommand_of_distance htx), hcs]; rfl
  | status =>
      obtain ⟨hne, heq⟩ := txCommand_of_status htx
      rw [State.laserFifoInData, if_neg hne, if_pos heq, hcs]; rfl

theorem statusWord_isSome (σ : BitVec 256) {j : Nat} (hj : j < statusDataLen) :
    ∃ w, statusWord σ j = some w := by
  match j, hj with
  | 0, _ | 1, _ | 2, _ | 3, _ | 4, _ => exact ⟨_, rfl⟩

/-- A payload word that is accepted in `DATA` extends the payload. -/
theorem carries_accepted {seen : BitVec 256 → Prop} {payload pops : List Word}
    (htx : s.tx = kind.tx) (hcs : s.cs = .data) (hready : i.laserFifoInReady = true)
    (hseen : seen i.fpgaStatus) (hcnt : s.txDataCnt.toNat < kind.dataLen)
    (hlength : payload.length = s.txDataCnt.toNat) (hcarries : Carries seen kind payload pops) :
    accepted s i = some (s.laserFifoInData i) ∧
      Carries seen kind (payload ++ [s.laserFifoInData i]) (pops ++ (popped s i).toList) := by
  refine ⟨by simp [accepted, State.laserFifoInValid, hcs, hready], ?_⟩
  cases kind with
  | distance =>
      have hdata : s.laserFifoInData i = i.fifoRddata := by
        rw [State.laserFifoInData, if_pos (txCommand_of_distance htx), hcs]
      have hpop : popped s i = some i.fifoRddata := by
        simp [popped, State.fifoRdreq, txCommand_of_distance htx, hcs]
      have hpops : pops = payload := hcarries
      simp only [Carries, hdata, hpop, hpops, Option.toList_some]
  | status =>
      obtain ⟨hpops, hslices⟩ := hcarries
      obtain ⟨w, hw⟩ := statusWord_isSome i.fpgaStatus hcnt
      have hdata : s.laserFifoInData i = w := by
        obtain ⟨hne, heq⟩ := txCommand_of_status htx
        simp only [State.laserFifoInData, if_neg hne, if_pos heq, hcs, hw, Option.getD_some]
      have hpop : popped s i = none := popped_of_status htx
      refine ⟨by simp [hpops, hpop], fun j hj => ?_⟩
      rw [List.length_append, List.length_singleton] at hj
      rcases Nat.lt_succ_iff_lt_or_eq.mp hj with hlt | rfl
      · rw [List.getElem_append_left hlt]
        exact hslices j hlt
      · exact ⟨_, hseen, by simp [hdata, hlength, hw]⟩

/-- **The step lemma.** One clock of the frame, with a sink that is ready where it must be. -/
theorem sent_step {seen : BitVec 256 → Prop} {acc pops : List Word} (hcs : s.cs ≠ .idle)
    (hsinks : Sinks s i) (hquiet : Undisturbed s i) (hseen : seen i.fpgaStatus)
    (h : Sent seen kind acc pops s) :
    Sent seen kind (acc ++ (accepted s i).toList) (pops ++ (popped s i).toList) (step s i) := by
  cases hphase : s.cs with
  | idle => exact absurd hphase hcs
  | «over» => simp [Sent, hphase] at h
  | head =>
      simp only [Sent, hphase] at h
      obtain ⟨htx, hcnt, rfl, rfl⟩ := h
      have hready : i.laserFifoInReady = true := by simpa [Sinks, hphase] using hsinks
      have hns : (step s i).cs = .dataLen := by simp [step, State.ns, hphase]
      have htx' := step_tx_of_undisturbed htx (by simp [State.inFrame, hphase])
        (by simp [hphase]) hquiet
      simp only [Sent, hns]
      refine ⟨htx', by simp [step, hphase, hcnt], ?_, ?_⟩
      · simp [accepted, State.laserFifoInValid, hphase, hready, laserFifoInData_head htx hphase,
          Kind.header]
      · simp [popped_of_ne_data, hphase]
  | dataLen =>
      simp only [Sent, hphase] at h
      obtain ⟨htx, hcnt, rfl, rfl⟩ := h
      have hready : i.laserFifoInReady = true := by simpa [Sinks, hphase] using hsinks
      have hns : (step s i).cs = .data := by simp [step, State.ns, hphase]
      have htx' := step_tx_of_undisturbed htx (by simp [State.inFrame, hphase])
        (by simp [hphase]) hquiet
      have hcnt' : (step s i).txDataCnt = 0 := by simp [step, hphase, hcnt]
      simp only [Sent, hns, hcnt']
      refine ⟨htx', by cases kind <;> decide, [], ?_, ?_, rfl⟩
      · simp [accepted, State.laserFifoInValid, hphase, hready,
          laserFifoInData_dataLen htx hphase, Kind.header]
      · rw [popped_of_ne_data (by simp [hphase])]
        cases kind <;> simp [Carries]
  | data =>
      simp only [Sent, hphase] at h
      obtain ⟨htx, hcnt, payload, rfl, hcarries, hlength⟩ := h
      have hlen := txDataLen_of_tx htx
      have htx' := step_tx_of_undisturbed htx (by simp [State.inFrame, hphase])
        (by simp [hphase]) hquiet
      have hns : (step s i).cs =
          if s.txDataCnt.toNat + 1 = kind.dataLen then .dly else .data := by
        simp [step, State.ns, hphase, hlen]
      by_cases hready : i.laserFifoInReady = true
      · obtain ⟨hacc, hcarries'⟩ :=
          carries_accepted htx hphase hready hseen hcnt hlength hcarries
        have hcnt' : (step s i).txDataCnt.toNat = s.txDataCnt.toNat + 1 := by
          have hlt := dataLen_lt kind
          simp only [step, hphase, hready, State.laserFifoInValid]
          simp [BitVec.toNat_add]
          omega
        by_cases hlast : s.txDataCnt.toNat + 1 = kind.dataLen
        · rw [if_pos hlast] at hns
          simp only [Sent, hns, hacc, Option.toList_some]
          exact ⟨htx', _, by rw [List.append_assoc], hcarries', by simp [hlength, hlast]⟩
        · rw [if_neg hlast] at hns
          simp only [Sent, hns, hacc, hcnt', Option.toList_some]
          exact ⟨htx', by omega, _, by rw [List.append_assoc], hcarries', by simp [hlength]⟩
      · -- a status word that waits
        have hwait : s.tx = Kind.status.tx ∧ s.txDataCnt.toNat + 1 < statusDataLen := by
          simpa [Sinks, hphase, hready] using hsinks
        obtain rfl : kind = .status := kind_tx_injective (htx.symm.trans hwait.1)
        rw [if_neg (show s.txDataCnt.toNat + 1 ≠ Kind.dataLen .status from hwait.2.ne)] at hns
        have hacc : accepted s i = none := by simp [accepted, hready]
        have hpop : popped s i = none := popped_of_status htx
        have hcnt' : (step s i).txDataCnt = s.txDataCnt := by simp [step, hphase, hready]
        simp only [Sent, hns, hacc, hpop, hcnt', Option.toList_none, List.append_nil]
        exact ⟨htx', hcnt, payload, rfl, hcarries, hlength⟩
  | dly =>
      simp only [Sent, hphase] at h
      obtain ⟨htx, hpayload⟩ := h
      have htx' := step_tx_of_undisturbed htx (by simp [State.inFrame, hphase])
        (by simp [hphase]) hquiet
      have hacc : accepted s i = none := by simp [accepted, State.laserFifoInValid, hphase]
      have hpop : popped s i = none := popped_of_ne_data (by simp [hphase])
      have hns : (step s i).cs = if i.laserFifoInReady then .checksum else .dly := by
        simp [step, State.ns, hphase]
      simp only [hacc, hpop, Option.toList_none, List.append_nil]
      split at hns <;> simp only [Sent, hns] <;> exact ⟨htx', hpayload⟩
  | checksum =>
      simp only [Sent, hphase] at h
      obtain ⟨htx, payload, rfl, hcarries, hlength⟩ := h
      have hready : i.laserFifoInReady = true := by simpa [Sinks, hphase] using hsinks
      have hns : (step s i).cs = .idle := by simp [step, State.ns, hphase, hready]
      have hpop : popped s i = none := popped_of_ne_data (by simp [hphase])
      simp only [Sent, hns, hpop, Option.toList_none, List.append_nil]
      refine ⟨⟨kind, payload, i.fpgaStatus.extractLsb' 128 3, hlength⟩, rfl, ?_, hcarries, _, hseen,
        rfl⟩
      simp [accepted, State.laserFifoInValid, hphase, hready, laserFifoInData_checksum htx hphase,
        Frame.words]

/-- A word that is popped is on the bus in the same clock, and a ready sink takes it. -/
theorem accepted_of_popped {w : Word} (hsinks : Sinks s i) (hpop : popped s i = some w) :
    accepted s i = some w := by
  obtain ⟨hrdreq, rfl⟩ : s.fifoRdreq = true ∧ i.fifoRddata = w := by
    simpa [popped] using hpop
  obtain ⟨hcommand, hcs⟩ : s.txCommand = upDistanceData.setWidth 32 ∧ s.cs = .data := by
    simpa [State.fifoRdreq] using hrdreq
  have hready : i.laserFifoInReady = true := by
    rcases (by simpa [Sinks, hcs] using hsinks : _ ∨ _) with hready | ⟨htx, _⟩
    · exact hready
    · exact absurd hcommand (txCommand_of_status htx).1
  simp [accepted, State.laserFifoInValid, hcs, hready, State.laserFifoInData, hcommand]

end Words

/-- The machine leaves `IDLE` in clock `t₀` and comes back to it `n` clocks later. -/
structure Trip (input : ℕ → Input) (t₀ n : ℕ) : Prop where
  leaves : (run input t₀).cs = .idle
  busy : ∀ t, t₀ < t → t < t₀ + n → (run input t).cs ≠ .idle
  returns : (run input (t₀ + n)).cs = .idle
  pos : 1 < n

/-- The trip sends the frame `f`: its words are the accepted ones, its payload the popped ones or
slices of `fpga_status` in the clocks of the trip. -/
structure Sends (input : ℕ → Input) (t₀ n : ℕ) (f : Frame) : Prop where
  accepted : logged step State.reset input accepted t₀ n = f.words
  carries : Carries (fun σ => ∃ t, t₀ ≤ t ∧ t < t₀ + n ∧ (input t).fpgaStatus = σ) f.kind f.payload
    (logged step State.reset input popped t₀ n)
  alarms : ∃ t, t₀ ≤ t ∧ t < t₀ + n ∧ f.alarms = (input t).fpgaStatus.extractLsb' 128 3

theorem sent_start {s : State} {i : Input} (seen : BitVec 256 → Prop) (hcs : s.cs = .idle)
    (hleaves : (step s i).cs ≠ .idle) :
    ∃ kind, Sent seen kind (accepted s i).toList (popped s i).toList (step s i) := by
  have hns : (step s i).cs = .head := by
    simp only [step, State.ns, hcs] at hleaves ⊢
    split <;> simp_all
  obtain ⟨kind, hkind⟩ := nextTx_of_head hcs hns
  have hacc : accepted s i = none := by simp [accepted, State.laserFifoInValid, hcs]
  have hpop : popped s i = none := popped_of_ne_data (by simp [hcs])
  refine ⟨kind, ?_⟩
  simp only [Sent, hns, hacc, hpop, Option.toList_none]
  exact ⟨hkind, by simp [step, hcs]⟩

/-- **Back-pressure.** Where the sink is ready in the clocks in which the machine does not wait for
it, and no step disturbs the kind, every popped word is accepted and every trip sends one frame. -/
theorem frames_accepted {input : ℕ → Input} (hsinks : ∀ t, Sinks (run input t) (input t))
    (hquiet : ∀ t, Undisturbed (run input t) (input t)) :
    (∀ t w, popped (run input t) (input t) = some w →
        accepted (run input t) (input t) = some w) ∧
      ∀ t₀ n, Trip input t₀ n → ∃ f, Sends input t₀ n f := by
  refine ⟨fun t w => accepted_of_popped (hsinks t), fun t₀ n htrip => ?_⟩
  obtain ⟨hleaves, hbusy, hreturns, hpos⟩ := htrip
  obtain ⟨n, rfl⟩ : ∃ n', n = n' + 1 := ⟨n - 1, by omega⟩
  let seen : BitVec 256 → Prop :=
    fun σ => ∃ t, t₀ ≤ t ∧ t < t₀ + (n + 1) ∧ (input t).fpgaStatus = σ
  obtain ⟨kind, hstart⟩ := sent_start seen hleaves (hbusy (t₀ + 1) (by omega) (by omega))
  have hfirst : Sent seen kind (logged step State.reset input accepted t₀ 1)
      (logged step State.reset input popped t₀ 1) (run input (t₀ + 1)) := by
    rw [logged_succ, logged_succ]
    exact hstart
  have hdone := logged_invariant
    (fun s i => s.cs ≠ .idle ∧ Sinks s i ∧ Undisturbed s i ∧ seen i.fpgaStatus)
    (show 1 ≤ n + 1 by omega) hfirst
    (fun _ _ _ _ h henv => sent_step henv.1 henv.2.1 henv.2.2.1 henv.2.2.2 h)
    (fun t hle hlt => ⟨hbusy t (by omega) hlt, hsinks t, hquiet t, t, by omega, hlt, rfl⟩)
  change Sent seen kind _ _ (run input (t₀ + (n + 1))) at hdone
  simp only [Sent, hreturns] at hdone
  obtain ⟨f, rfl, hacc, hcarries, σ, ⟨t, ht₀, ht₁, rfl⟩, halarms⟩ := hdone
  exact ⟨f, hacc, hcarries, t, ht₀, ht₁, halarms⟩

/-- An empty FIFO and a sink that is always ready. -/
def calm (_ : ℕ) : Input where
  fifoRddata := 0
  fifoUsedw := 0
  fpgaStatus := 0
  laserFifoInReady := true

theorem sinks_calm (t : ℕ) : Sinks (run calm t) (calm t) := by
  unfold Sinks
  split <;> simp [calm]

theorem undisturbed_calm (t : ℕ) : Undisturbed (run calm t) (calm t) := by
  have hnever : (run calm t).txCommand ≠ upDistanceData.setWidth 32 := by
    refine trace_invariant (fun s : State => s.txCommand ≠ upDistanceData.setWidth 32)
      (by decide) (fun s t h => ?_) t
    have hlow : ¬ cycleDataLen ≤ (calm t).fifoUsedw.toNat := by simp [calm, cycleDataLen]
    simp only [step, State.nextTx, if_neg hlow]
    split
    · decide
    · split
      · decide
      · exact h
  refine fun _ _ => ⟨fun _ => ?_, fun htx => absurd (txCommand_of_distance htx) hnever⟩
  simp [calm, cycleDataLen]

theorem trip_calm : Trip calm 100 10 := by
  refine ⟨by decide +kernel, fun t hlt hle => ?_, by decide +kernel, by decide⟩
  obtain rfl | rfl | rfl | rfl | rfl | rfl | rfl | rfl | rfl : t = 101 ∨ t = 102 ∨ t = 103 ∨
    t = 104 ∨ t = 105 ∨ t = 106 ∨ t = 107 ∨ t = 108 ∨ t = 109 := by omega
  all_goals decide +kernel

theorem frames_accepted_calm : ∃ f, Sends calm 100 10 f :=
  (frames_accepted sinks_calm undisturbed_calm).2 100 10 trip_calm

/-- The same, but the sink is not ready in the clock of the head word. -/
def stall (t : ℕ) : Input := { calm t with laserFifoInReady := t ≠ 101 }

theorem head_lost :
    ¬ ∀ input : ℕ → Input,
      (∀ t w, popped (run input t) (input t) = some w →
          accepted (run input t) (input t) = some w) ∧
        ∀ t₀ n, Trip input t₀ n → ∃ f, Sends input t₀ n f := by
  intro h
  have htrip : Trip stall 100 10 := by
    refine ⟨by decide +kernel, fun t hlt hle => ?_, by decide +kernel, by decide⟩
    obtain rfl | rfl | rfl | rfl | rfl | rfl | rfl | rfl | rfl : t = 101 ∨ t = 102 ∨ t = 103 ∨
      t = 104 ∨ t = 105 ∨ t = 106 ∨ t = 107 ∨ t = 108 ∨ t = 109 := by omega
    all_goals decide +kernel
  obtain ⟨f, hf⟩ := (h stall).2 100 10 htrip
  have hlog : logged step State.reset stall accepted 100 10 =
      [5, 0, 0, 0, 0, 0, 0xeeeeeeee] := by decide +kernel
  have hlength := congrArg List.length (hlog.symm.trans hf.accepted)
  have hcomplete := f.complete
  simp only [Frame.words, Kind.header, List.length_append, List.length_cons, List.length_nil,
    hcomplete] at hlength
  cases hkind : f.kind <;> rw [hkind] at hlength <;> exact absurd hlength (by decide)

end SingleScan.Update2Nios
