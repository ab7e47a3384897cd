import SingleScan.CommandLink

/-!
# The decoder follows the packets

`command_module` decodes by a word counter that starts in the header, parameter registers that react
to the next state, and two states that do not look at the bus at all. The relation `Follows` says
where it stands for each stage of the abstract reader; one quiet clock and one word preserve it, and
`Spaced.simulate` carries it over any stream with a quiet clock behind each word.
-/

namespace SingleScan.CommandLink

open Clocked CommandModule

/-! ### What one clock does to the registers -/

section Step

variable {s : State}

/-- A quiet clock leaves the registers alone unless a parameter command loads from the idle bus. -/
theorem step_quiet {d : Word} (hparam : ∀ p : Param, ¬ s.loads ⟨false, d⟩ p.command) :
    (step s ⟨false, d⟩).param = s.param ∧ (step s ⟨false, d⟩).laserPresdo = s.laserPresdo ∧
      (step s ⟨false, d⟩).writeRam = s.writeRam ∧
      ∀ k, (step s ⟨false, d⟩).regionWren k = false := by
  have hwren : ∀ k, (step s ⟨false, d⟩).regionWren k = false := by
    intro k
    simp [step]
  refine ⟨?_, by simp [step], ?_, hwren⟩
  · funext p
    simp [step, hparam p]
  · funext k a
    rw [State.writeRam, hwren k]
    simp [step]

/-- So does a word that does not move the machine into `DATA`. -/
theorem step_skip {bus : Bus Word} (hns : s.ns bus ≠ .data) :
    (step s bus).param = s.param ∧ (step s bus).laserPresdo = s.laserPresdo ∧
      (step s bus).writeRam = s.writeRam ∧ ∀ k, (step s bus).regionWren k = false := by
  have hloads : ∀ command, ¬ s.loads bus command := fun _ h => hns h.1
  have hwren : ∀ k, (step s bus).regionWren k = false := by
    intro k
    simp [step, hloads]
  refine ⟨?_, by simp [step, hloads], ?_, hwren⟩
  · funext p
    simp [step, hloads]
  · funext k a
    rw [State.writeRam, hwren k]
    simp [step]

/-- Behind the clock that takes word `i`, the address is `i`. -/
theorem regionWraddr_step {w : Word} {i : ℕ} (hready : s.protocolFifoOutReady = true)
    (hcs : s.cs ≠ .idle) (hcnt : s.recvCnt = BitVec.ofNat 16 (i + 1)) :
    (step s ⟨true, w⟩).regionWraddr = BitVec.ofNat 10 i := by
  have hnext : (step s ⟨true, w⟩).recvCnt = BitVec.ofNat 16 (i + 2) := by
    simp [step, hcs, hready, hcnt, BitVec.ofNat_add, BitVec.add_assoc]
  have hsub : BitVec.ofNat 16 (i + 2) - 2 = BitVec.ofNat 16 i := by
    rw [BitVec.ofNat_add]
    exact BitVec.add_sub_cancel _ _
  rw [State.regionWraddr, hnext, hsub]
  exact BitVec.setWidth_ofNat_of_le (by decide) i

/-- A word that moves it there is loaded by the registers of its command. -/
theorem step_load {w : Word} {command : BitVec 16} {i : Nat} {regs : Regs}
    (hready : s.protocolFifoOutReady = true) (hcs : s.cs ≠ .idle)
    (hns : s.ns ⟨true, w⟩ = .data) (hcommand : s.recvCommand = command)
    (hcnt : s.recvCnt = BitVec.ofNat 16 (i + 1)) (hparam : s.param = regs.param)
    (hpresdo : s.laserPresdo = regs.laserPresdo) (hram : s.writeRam = regs.regionRam) :
    (step s ⟨true, w⟩).param = (regs.load command i w).param ∧
      (step s ⟨true, w⟩).laserPresdo = (regs.load command i w).laserPresdo ∧
      (step s ⟨true, w⟩).writeRam = (regs.load command i w).regionRam := by
  have hloads : ∀ c, s.loads ⟨true, w⟩ c ↔ command = c := by
    intro c
    simp [State.loads, hns, hcommand]
  have haddr := regionWraddr_step (w := w) hready hcs hcnt
  refine ⟨?_, ?_, ?_⟩
  · funext p
    simp [step, Regs.load, hloads, hparam]
  · simp [step, Regs.load, hloads, hpresdo]
  · funext k a
    rw [State.writeRam, haddr]
    simp only [step, hloads, hready, Bool.and_self, hram, Regs.load]
    by_cases hk : command = wrRegion k
    · simp [hk]
    · simp [hk]

end Step

/-! ### The relation -/

/-- Where the machine stands for each stage of the reader. The flag says that the previous clock
carried a word, which `DATA` and `OVER` use up without looking at the bus. -/
def Place : Stage → Bool → State → Prop
  | .between, b, s => s.cs = if b then .over else .idle
  | .head p, _, s => s.cs = .headCommand ∧ s.recvCommand = p.command ∧ s.recvCnt = 0
  | .length p, _, s =>
      s.cs = .dataLen ∧ s.recvCommand = p.command ∧ s.recvCnt = 1 ∧
        s.dataLenReg = BitVec.ofNat 16 p.data.length
  | .payload p taken, b, s =>
      s.cs = (if taken = p.data.length ∧ b = false then .checksum else .data) ∧
        s.recvCommand = p.command ∧ s.recvCnt = BitVec.ofNat 16 (taken + 1) ∧
        s.dataLenReg = BitVec.ofNat 16 p.data.length ∧ 0 < taken ∧ taken ≤ p.data.length

structure Follows (b : Bool) (r : Receiver) (s : State) : Prop where
  ready : s.protocolFifoOutReady = true
  place : Place r.stage b s
  param : s.param = r.regs.param
  laserPresdo : s.laserPresdo = r.regs.laserPresdo
  ram : s.writeRam = r.regs.regionRam
  still : b = false → ∀ k, s.regionWren k = false

/-- The counter reaches the length register exactly behind the last data word. -/
theorem counter_full_iff {p : Packet} {s : State} {taken : Nat}
    (hcnt : s.recvCnt = BitVec.ofNat 16 (taken + 1))
    (hlen : s.dataLenReg = BitVec.ofNat 16 p.data.length) (htaken : taken ≤ p.data.length) :
    s.recvCnt.toNat = s.dataLenReg.toNat + 1 ↔ taken = p.data.length := by
  have hshort := p.short
  rw [hcnt, hlen, BitVec.toNat_ofNat, BitVec.toNat_ofNat, Nat.mod_eq_of_lt (by omega),
    Nat.mod_eq_of_lt (by omega)]
  omega

theorem ns_payload {p : Packet} {s : State} {bus : Bus Word} {taken : Nat} (hcs : s.cs = .data)
    (hcnt : s.recvCnt = BitVec.ofNat 16 (taken + 1))
    (hlen : s.dataLenReg = BitVec.ofNat 16 p.data.length) (htaken : taken ≤ p.data.length) :
    s.ns bus = if taken = p.data.length then .checksum else .data := by
  simp only [State.ns, hcs, counter_full_iff hcnt hlen htaken]

/-- **A quiet clock** changes nothing the reader can see. -/
theorem follows_quiet {b : Bool} {r : Receiver} {s : State} (d : Word) (h : Follows b r s) :
    Follows false r (step s ⟨false, d⟩) := by
  obtain ⟨hready, hplace, hparam, hpresdo, hram, _⟩ := h
  -- while a packet of several words waits in `DATA` its registers see the idle bus
  suffices hboth : (∀ p : Param, ¬ s.loads ⟨false, d⟩ p.command) ∧
      Place r.stage false (step s ⟨false, d⟩) by
    obtain ⟨hp, hl, hr, hw⟩ := step_quiet hboth.1
    exact ⟨rfl, hboth.2, hp.trans hparam, hl.trans hpresdo, hr.trans hram, fun _ => hw⟩
  cases hstage : r.stage with
  | between =>
      rw [hstage] at hplace
      simp only [Place] at hplace ⊢
      cases b <;> simp_all [State.loads, State.ns, step]
  | head p =>
      rw [hstage] at hplace
      obtain ⟨hcs, hcommand, hcnt⟩ := hplace
      simp [Place, State.loads, State.ns, step, hcs, hcommand, hcnt]
  | length p =>
      rw [hstage] at hplace
      obtain ⟨hcs, hcommand, hcnt, hlen⟩ := hplace
      simp [Place, State.loads, State.ns, step, hcs, hcommand, hcnt, hlen]
  | payload p taken =>
      rw [hstage] at hplace
      obtain ⟨hcs, hcommand, hcnt, hlen, hpos, htaken⟩ := hplace
      have hidle : s.cs ≠ .idle := by rw [hcs]; split <;> simp
      have hhead : s.cs ≠ .headCommand := by rw [hcs]; split <;> simp
      have hkeep : Place (.payload p taken) false (step s ⟨false, d⟩) ↔
          s.ns ⟨false, d⟩ = if taken = p.data.length then .checksum else .data := by
        simp [Place, step, hcommand, hcnt, hlen, hpos, htaken, hidle, hhead]
      rw [hkeep]
      by_cases hfull : taken = p.data.length
      · have hns : s.ns ⟨false, d⟩ = .checksum := by
          cases b with
          | false => simp [State.ns, hcs, hfull]
          | true =>
              rw [ns_payload (by simpa using hcs) hcnt hlen htaken, if_pos hfull]
        exact ⟨fun _ hloads => by simp [State.loads, hns] at hloads, by rw [hns, if_pos hfull]⟩
      · have hns : s.ns ⟨false, d⟩ = .data := by
          rw [ns_payload (by simpa [hfull] using hcs) hcnt hlen htaken, if_neg hfull]
        refine ⟨fun q hloads => ?_, by rw [hns, if_neg hfull]⟩
        rcases p.single with hone | hquiet
        · omega
        · exact hquiet q (hloads.2.symm.trans hcommand)

/-- **A word** moves the machine as it moves the reader. -/
theorem follows_word {r : Receiver} {s : State} (w : Word) (h : Follows false r s)
    (hnext : r.Next w) : Follows true (r.take w) (step s ⟨true, w⟩) := by
  obtain ⟨hready, hplace, hparam, hpresdo, hram, _⟩ := h
  obtain ⟨rest, hrest⟩ := hnext
  -- a word outside the data phase: only the place moves
  have hskip : ∀ stage todo, s.ns ⟨true, w⟩ ≠ .data → Place stage true (step s ⟨true, w⟩) →
      Follows true ⟨stage, todo, r.regs⟩ (step s ⟨true, w⟩) := by
    intro stage todo hns hplace'
    obtain ⟨hp, hl, hr, _⟩ := step_skip hns
    exact ⟨rfl, hplace', hp.trans hparam, hl.trans hpresdo, hr.trans hram, by simp⟩
  -- a data word
  have hload : ∀ (p : Packet) (i : Nat), s.cs ≠ .idle → s.ns ⟨true, w⟩ = .data →
      s.recvCommand = p.command → s.recvCnt = BitVec.ofNat 16 (i + 1) →
      s.dataLenReg = BitVec.ofNat 16 p.data.length → s.cs ≠ .headCommand → i < p.data.length →
      Follows true ⟨.payload p (i + 1), r.todo, r.regs.load p.command i w⟩
        (step s ⟨true, w⟩) := by
    intro p i hcs hns hcommand hcnt hlen hhead hi
    obtain ⟨hp, hl, hr⟩ := step_load hready hcs hns hcommand hcnt hparam hpresdo hram
    refine ⟨rfl, ⟨?_, ?_, ?_, ?_, Nat.succ_pos i, hi⟩, hp, hl, hr, by simp⟩
    · simp [step, hns]
    · simp [step, hcs, hcommand]
    · simp [step, hcs, hready, hcnt, BitVec.ofNat_add]
    · simp [step, hcs, hhead, hlen]
  cases hstage : r.stage with
  | between =>
      rw [hstage] at hplace
      simp only [Place] at hplace
      cases htodo : r.todo with
      | nil => simp [Receiver.rest, Stage.rest, hstage, htodo] at hrest
      | cons p todo =>
          have hw : w = headCode ++ p.command := by
            simp [Receiver.rest, Stage.rest, hstage, htodo, Packet.words] at hrest
            exact hrest.1.symm
          have hhigh : w.high = headCode := by
            subst hw; rw [Word.high, BitVec.extractLsb'_append_eq_left]
          have hlow : w.low = p.command := by
            subst hw; rw [Word.low, BitVec.setWidth_append]; simp
          have hns : s.ns ⟨true, w⟩ = .headCommand := by simp [State.ns, hplace, hhigh]
          have htake : r.take w = ⟨.head p, todo, r.regs⟩ := by
            simp [Receiver.take, hstage, htodo]
          rw [htake]
          apply hskip _ _ (by simp [hns])
          simp [Place, step, hns, hplace, hlow]
  | head p =>
      rw [hstage] at hplace
      obtain ⟨hcs, hcommand, hcnt⟩ := hplace
      have hw : w = BitVec.ofNat 32 p.data.length := by
        simp [Receiver.rest, Stage.rest, hstage] at hrest
        exact hrest.1.symm
      have hlow : w.low = BitVec.ofNat 16 p.data.length := by
        subst hw; rw [Word.low]; simp
      have hns : s.ns ⟨true, w⟩ = .dataLen := by simp [State.ns, hcs]
      have htake : r.take w = ⟨.length p, r.todo, r.regs⟩ := by simp [Receiver.take, hstage]
      rw [htake]
      apply hskip _ _ (by simp [hns])
      simp [Place, step, hns, hcs, hcommand, hcnt, hready, hlow]
  | length p =>
      rw [hstage] at hplace
      obtain ⟨hcs, hcommand, hcnt, hlen⟩ := hplace
      have hns : s.ns ⟨true, w⟩ = .data := by simp [State.ns, hcs]
      have htake : r.take w = ⟨.payload p 1, r.todo, r.regs.load p.command 0 w⟩ := by
        simp [Receiver.take, hstage]
      rw [htake]
      exact hload p 0 (by simp [hcs]) hns hcommand (by simpa using hcnt) hlen (by simp [hcs])
        p.nonempty
  | payload p taken =>
      rw [hstage] at hplace
      obtain ⟨hcs, hcommand, hcnt, hlen, hpos, htaken⟩ := hplace
      by_cases hfull : taken = p.data.length
      · have hchecksum : s.cs = .checksum := by simpa [hfull] using hcs
        have hns : s.ns ⟨true, w⟩ = .over := by simp [State.ns, hchecksum]
        have htake : r.take w = ⟨.between, r.todo, r.regs⟩ := by
          simp [Receiver.take, hstage, hfull]
        rw [htake]
        apply hskip _ _ (by simp [hns])
        simp [Place, step, hns]
      · have hdata : s.cs = .data := by simpa [hfull] using hcs
        have hns : s.ns ⟨true, w⟩ = .data := by
          rw [ns_payload hdata hcnt hlen htaken, if_neg hfull]
        have hlt : taken < p.data.length := by omega
        have htake : r.take w =
            ⟨.payload p (taken + 1), r.todo, r.regs.load p.command taken w⟩ := by
          simp [Receiver.take, hstage, hlt]
        rw [htake]
        exact hload p taken (by simp [hdata]) hns hcommand hcnt hlen (by simp [hdata]) hlt

/-! ### The reader on a whole stream -/

/-- What the registers will be when the words still to come have been read. -/
def Receiver.final (r : Receiver) : Regs :=
  r.todo.foldl Regs.apply <| match r.stage with
    | .between => r.regs
    | .head p => r.regs.apply p
    | .length p => r.regs.apply p
    | .payload p taken => r.regs.loadAll p.command taken (p.data.drop taken)

theorem take_rest_final {r : Receiver} {w : Word} {ws : List Word} (hrest : r.rest = w :: ws) :
    (r.take w).rest = ws ∧ (r.take w).final = r.final := by
  obtain ⟨stage, todo, regs⟩ := r
  cases stage with
  | between =>
      cases todo with
      | nil => simp [Receiver.rest, Stage.rest] at hrest
      | cons p todo =>
          simp only [Receiver.rest, Stage.rest, List.nil_append, List.flatMap_cons, Packet.words,
            List.cons_append, List.cons.injEq] at hrest
          refine ⟨?_, rfl⟩
          simp only [Receiver.take, Receiver.rest, Stage.rest, ← hrest.2, List.cons_append]
  | head p =>
      simp only [Receiver.rest, Stage.rest, List.cons_append, List.cons.injEq] at hrest
      exact ⟨hrest.2, rfl⟩
  | length p =>
      have hsplit := List.drop_eq_getElem_cons p.nonempty
      rw [List.drop_zero, Nat.zero_add] at hsplit
      simp only [Receiver.rest, Stage.rest] at hrest
      rw [hsplit, List.cons_append, List.cons_append, List.cons.injEq] at hrest
      obtain ⟨hw, hws⟩ := hrest
      refine ⟨hws, ?_⟩
      simp only [Receiver.take, Receiver.final, Regs.apply]
      conv_rhs => rw [hsplit]
      rw [Regs.loadAll, hw]
  | payload p taken =>
      by_cases hlt : taken < p.data.length
      · have hsplit := List.drop_eq_getElem_cons hlt
        simp only [Receiver.rest, Stage.rest] at hrest
        rw [hsplit, List.cons_append, List.cons_append, List.cons.injEq] at hrest
        obtain ⟨hw, hws⟩ := hrest
        simp only [Receiver.take, hlt, if_true]
        refine ⟨hws, ?_⟩
        simp only [Receiver.final]
        conv_rhs => rw [hsplit]
        rw [Regs.loadAll, hw]
      · have hdrop : p.data.drop taken = [] := List.drop_of_length_le (by omega)
        simp only [Receiver.rest, Stage.rest, hdrop, List.nil_append, List.cons_append,
          List.cons.injEq] at hrest
        simp [Receiver.take, hlt, Receiver.rest, Stage.rest, Receiver.final, hdrop,
          Regs.loadAll, hrest.2]

/-- The reader expects the words still to come, and any part of them from the front. -/
theorem expects_front {ws : List Word} :
    ∀ {r : Receiver}, ws <+: r.rest → Expects Receiver.Next Receiver.take r ws := by
  induction ws with
  | nil => intro r _; trivial
  | cons w ws ih =>
      intro r hfront
      obtain ⟨rest, hrest⟩ := hfront
      exact ⟨⟨ws ++ rest, hrest.symm⟩, ih ⟨rest, ((take_rest_final hrest.symm).1).symm⟩⟩

theorem foldl_take_rest :
    ∀ {ws : List Word} {r : Receiver}, r.rest = ws →
      ws.foldl Receiver.take r = ⟨.between, [], r.final⟩ := by
  intro ws
  induction ws with
  | nil =>
      rintro ⟨stage, todo, regs⟩ hrest
      cases stage with
      | between =>
          cases todo with
          | nil => rfl
          | cons p todo => simp [Receiver.rest, Stage.rest, Packet.words] at hrest
      | head p => simp [Receiver.rest, Stage.rest] at hrest
      | length p => simp [Receiver.rest, Stage.rest] at hrest
      | payload p taken => simp [Receiver.rest, Stage.rest] at hrest
  | cons w ws ih =>
      intro r hrest
      obtain ⟨hrest', hfinal⟩ := take_rest_final hrest
      rw [List.foldl_cons, ih hrest', hfinal]

/-- The machine between two packets: in `IDLE`, ready, with no write on its way to a RAM. -/
structure Waiting (s : State) : Prop where
  cs : s.cs = .idle
  ready : s.protocolFifoOutReady = true
  still : ∀ k, s.regionWren k = false

theorem waiting_reset (ram : RegionRam) (d : Word) : Waiting (step (State.reset ram) ⟨false, d⟩) :=
  ⟨rfl, rfl, fun k => by simp [step]⟩

/-- The registers the link maintains. -/
def regsOf (s : State) : Regs := ⟨s.param, s.laserPresdo, s.regionRam⟩

theorem writeRam_of_still {s : State} (hstill : ∀ k, s.regionWren k = false) :
    s.writeRam = s.regionRam := by
  funext k a
  simp [State.writeRam, hstill k]

theorem Waiting.follows {s : State} (h : Waiting s) (ps : List Packet) :
    Follows false ⟨.between, ps, regsOf s⟩ s :=
  ⟨h.ready, by simp [Place, h.cs], rfl, rfl, writeRam_of_still h.still, fun _ => h.still⟩

/-- The machine after some of the words of a list of packets stands where the reader does. -/
theorem follows_run {s : State} (h : Waiting s) {ps : List Packet} {ws : List Word}
    {bus : List (Bus Word)} (hfront : ws <+: ps.flatMap Packet.words)
    (hbus : Spaced false ws bus) :
    Follows false (ws.foldl Receiver.take ⟨.between, ps, regsOf s⟩) (run s bus) :=
  hbus.simulate (fun d h => follows_quiet d h) (fun w h => follows_word w h) (h.follows ps)
    (expects_front hfront)

/-- **A stream of packets** leaves the machine waiting, and its registers as the packets in order
make them. -/
theorem run_packets {s : State} (h : Waiting s) {ps : List Packet} {bus : List (Bus Word)}
    (hbus : Spaced false (ps.flatMap Packet.words) bus) :
    Waiting (run s bus) ∧ regsOf (run s bus) = ps.foldl Regs.apply (regsOf s) := by
  have hfollows := follows_run h (List.prefix_refl _) hbus
  have hrest : Receiver.rest ⟨.between, ps, regsOf s⟩ = ps.flatMap Packet.words := rfl
  rw [foldl_take_rest hrest] at hfollows
  obtain ⟨hready, hplace, hparam, hpresdo, hram, hstill⟩ := hfollows
  refine ⟨⟨by simpa [Place] using hplace, hready, hstill rfl⟩, ?_⟩
  rw [writeRam_of_still (hstill rfl)] at hram
  simp only [regsOf, hparam, hpresdo, hram]
  rfl

/-! ### The calls of the Nios core -/

theorem headWord_eq (command : BitVec 16) :
    ((0x1234 : Word) <<< 16) + command.setWidth 32 = headCode ++ command := by
  apply BitVec.eq_of_toNat_eq
  have hlt := command.isLt
  have hhead : ((0x1234 : Word) <<< 16).toNat = 0x12340000 := by decide
  rw [BitVec.toNat_append, ← Nat.shiftLeft_add_eq_or_of_lt hlt, BitVec.toNat_add, hhead,
    BitVec.toNat_setWidth, Nat.shiftLeft_eq, show headCode.toNat = 0x1234 by decide]
  omega

theorem Param.command_ne_wrRegion (p : Param) (k : Layer) : p.command ≠ wrRegion k := by
  cases p <;> revert k <;> decide

theorem laserPseudo_ne_wrRegion (k : Layer) : laserPseudo ≠ wrRegion k := by
  revert k
  decide

theorem wrRegion_injective {j k : Layer} (h : wrRegion j = wrRegion k) : j = k := by
  revert j k
  decide

/-- The packet a call puts on the link. -/
def Send.packet : Send → Packet
  | .setLaserParamter command data =>
      { command, data := [data], closing := checkSum [headCode ++ command, 1, data]
        nonempty := by simp, short := by simp, single := by simp }
  | .regionSave2fpga buffer num =>
      { command := wrRegion num
        data := List.ofFn fun i => (buffer i).setWidth 32
        closing := 0xccccdddd
        nonempty := by rw [List.length_ofFn]; decide
        short := by rw [List.length_ofFn]; decide
        single := .inr fun p => Param.command_ne_wrRegion p num }

theorem Send.words_eq (send : Send) : send.words = send.packet.words := by
  cases send with
  | setLaserParamter command data =>
      simp only [Send.words, Send.packet, Packet.words, SingleScan.setLaserParamter,
        nios2fpgaDataPacket, nios2fpgaDataWrite, map_writeFifo, headWord_eq]
      rfl
  | regionSave2fpga buffer num =>
      simp only [Send.words, Send.packet, Packet.words, SingleScan.regionSave2fpga, map_writeFifo,
        List.length_ofFn]
      congr 1
      revert num
      decide

theorem sends_words (sends : List Send) :
    sends.flatMap Send.words = (sends.map Send.packet).flatMap Packet.words := by
  simp only [List.flatMap_map, funext Send.words_eq]

theorem loadAll_of_ne {regs : Regs} {command : BitVec 16} {data : List Word} {i : Nat} :
    (∀ p : Param, p.command ≠ command →
        (regs.loadAll command i data).param p = regs.param p) ∧
      (laserPseudo ≠ command → (regs.loadAll command i data).laserPresdo = regs.laserPresdo) ∧
      ∀ k, wrRegion k ≠ command → (regs.loadAll command i data).regionRam k = regs.regionRam k := by
  induction data generalizing regs i with
  | nil => exact ⟨fun _ _ => rfl, fun _ => rfl, fun _ _ => rfl⟩
  | cons d data ih =>
      obtain ⟨hp, hl, hr⟩ := @ih (regs.load command i d) (i + 1)
      refine ⟨fun p hne => ?_, fun hne => ?_, fun k hne => ?_⟩
      · rw [Regs.loadAll, hp p hne]
        simp [Regs.load, Ne.symm hne]
      · rw [Regs.loadAll, hl hne]
        simp [Regs.load, Ne.symm hne]
      · rw [Regs.loadAll, hr k hne]
        funext a
        simp [Regs.load, Ne.symm hne]

/-- The words of a region packet fill the RAM from their index on. -/
theorem loadAll_regionRam {regs : Regs} {k : Layer} {data : List Word} {i : Nat}
    (hfit : i + data.length ≤ 1024) (a : BitVec 10) :
    (regs.loadAll (wrRegion k) i data).regionRam k a =
      if h : i ≤ a.toNat ∧ a.toNat < i + data.length then
        (data.get ⟨a.toNat - i, by omega⟩).setWidth 18
      else regs.regionRam k a := by
  induction data generalizing regs i with
  | nil =>
      rw [Regs.loadAll, dif_neg (by simp)]
  | cons d data ih =>
      simp only [List.length_cons] at hfit
      rw [Regs.loadAll, ih (by omega)]
      have haddr : a = BitVec.ofNat 10 i ↔ a.toNat = i := by
        rw [← BitVec.toNat_inj, BitVec.toNat_ofNat, Nat.mod_eq_of_lt (by omega)]
      by_cases hlater : i + 1 ≤ a.toNat ∧ a.toNat < i + 1 + data.length
      · rw [dif_pos hlater, dif_pos (by simp only [List.length_cons]; omega)]
        have hidx : a.toNat - i = (a.toNat - (i + 1)) + 1 := by omega
        simp only [hidx, List.get_cons_succ]
      · rw [dif_neg hlater]
        by_cases hhere : a.toNat = i
        · rw [dif_pos (by simp only [List.length_cons]; omega)]
          simp [Regs.load, haddr, hhere]
        · rw [dif_neg (by simp only [List.length_cons]; omega)]
          simp [Regs.load, haddr, hhere]

/-- A region packet only touches the RAM of its layer. -/
theorem apply_region (regs : Regs) {p : Packet} {num : Layer} {n : Nat} {f : Fin n → Word}
    (hcommand : p.command = wrRegion num) (hdata : p.data = List.ofFn f) (hfit : n ≤ 1024) :
    (regs.apply p).param = regs.param ∧ (regs.apply p).laserPresdo = regs.laserPresdo ∧
      (∀ k, k ≠ num → (regs.apply p).regionRam k = regs.regionRam k) ∧
      ∀ a, (regs.apply p).regionRam num a =
        if h : a.toNat < n then (f ⟨a.toNat, h⟩).setWidth 18 else regs.regionRam num a := by
  obtain ⟨hp, hl, hr⟩ := @loadAll_of_ne regs (wrRegion num) (List.ofFn f) 0
  simp only [Regs.apply, hcommand, hdata]
  refine ⟨funext fun q => hp q (Param.command_ne_wrRegion q num),
    hl (laserPseudo_ne_wrRegion num), fun k hk => hr k fun h => hk (wrRegion_injective h),
    fun a => ?_⟩
  rw [loadAll_regionRam (by rw [List.length_ofFn]; omega)]
  by_cases ha : a.toNat < n
  · rw [dif_pos ha, dif_pos (by rw [List.length_ofFn]; omega), List.get_ofFn]
    rfl
  · rw [dif_neg ha, dif_neg (by rw [List.length_ofFn]; omega)]

theorem apply_send (regs : Regs) (send : Send) :
    (∀ p : Param, (regs.apply send.packet).param p =
        (dataFor p.command [send]).foldl p.decode (regs.param p)) ∧
      (regs.apply send.packet).laserPresdo =
        (dataFor laserPseudo [send]).foldl (fun old d => old.setWidth 208 ++ d)
          regs.laserPresdo ∧
      ∀ k, (regs.apply send.packet).regionRam k = send.store k (regs.regionRam k) := by
  cases send with
  | setLaserParamter command data =>
      refine ⟨fun p => ?_, ?_, fun k => ?_⟩
      · by_cases hc : command = p.command <;>
          simp [Regs.apply, Send.packet, Regs.loadAll, Regs.load, dataFor, hc]
      · by_cases hc : command = laserPseudo <;>
          simp [Regs.apply, Send.packet, Regs.loadAll, Regs.load, dataFor, hc]
      · by_cases hc : command = wrRegion k
        · funext a
          simp [Regs.apply, Send.packet, Regs.loadAll, Regs.load, Send.store, hc,
            Function.update_apply]
        · funext a
          simp [Regs.apply, Send.packet, Regs.loadAll, Regs.load, Send.store, hc]
  | regionSave2fpga buffer num =>
      have hdata : (Send.regionSave2fpga buffer num).packet.data =
          List.ofFn fun i => (buffer i).setWidth 32 := by
        simp only [Send.packet]
      have hcommand : (Send.regionSave2fpga buffer num).packet.command = wrRegion num := by
        simp only [Send.packet]
      obtain ⟨hp, hl, hother, hown⟩ := apply_region regs hcommand hdata (by decide)
      have hnone : ∀ command, dataFor command [Send.regionSave2fpga buffer num] = [] :=
        fun _ => rfl
      refine ⟨fun p => ?_, ?_, fun k => ?_⟩
      · rw [hp, hnone, List.foldl_nil]
      · rw [hl, hnone, List.foldl_nil]
      · by_cases hk : num = k
        · subst hk
          funext a
          rw [hown, Send.store, if_pos rfl, storeTable]
          split
          · exact BitVec.setWidth_setWidth_of_le _ (by decide)
          · rfl
        · rw [hother k (Ne.symm hk), Send.store, if_neg hk]

theorem dataFor_cons (command : BitVec 16) (send : Send) (sends : List Send) :
    dataFor command (send :: sends) = dataFor command [send] ++ dataFor command sends := by
  simp [dataFor]

theorem apply_sends (sends : List Send) (regs : Regs) :
    (∀ p : Param, ((sends.map Send.packet).foldl Regs.apply regs).param p =
        (dataFor p.command sends).foldl p.decode (regs.param p)) ∧
      ((sends.map Send.packet).foldl Regs.apply regs).laserPresdo =
        (dataFor laserPseudo sends).foldl (fun old d => old.setWidth 208 ++ d)
          regs.laserPresdo ∧
      ∀ k, ((sends.map Send.packet).foldl Regs.apply regs).regionRam k =
        sends.foldl (Send.store k) (regs.regionRam k) := by
  induction sends generalizing regs with
  | nil => exact ⟨fun _ => rfl, rfl, fun _ => rfl⟩
  | cons send sends ih =>
      obtain ⟨hp, hl, hr⟩ := apply_send regs send
      obtain ⟨hp', hl', hr'⟩ := ih (regs.apply send.packet)
      refine ⟨fun p => ?_, ?_, fun k => ?_⟩
      · rw [List.map_cons, List.foldl_cons, hp', hp, dataFor_cons _ send sends, List.foldl_append]
      · rw [List.map_cons, List.foldl_cons, hl', hl, dataFor_cons _ send sends, List.foldl_append]
      · rw [List.map_cons, List.foldl_cons, hr', hr, List.foldl_cons]

end SingleScan.CommandLink
