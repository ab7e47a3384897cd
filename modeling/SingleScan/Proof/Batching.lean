import SingleScan.Proof.Framing
import SingleScan.Proof.SickProtocol

/-!
# Packets in one call and in many

When one call of `pc2dev_parse` on several packets does what one call for each of them does.
-/

namespace SingleScan

open Pc2Dev

variable {φ : Type}

/-! ### What a packet reads -/

theorem le_commandReads (command : Word) : 12 ≤ commandReads command := by
  unfold commandReads
  split_ifs <;> omega

theorem bigEndian_congr {buf buf' : Bytes} {i : ℕ} (hsame : ∀ j < 4, buf (i + j) = buf' (i + j)) :
    bigEndian buf i = bigEndian buf' i := by
  have h₀ : buf i = buf' i := hsame 0 (by omega)
  rw [bigEndian, bigEndian, h₀, hsame 1 (by omega), hsame 2 (by omega), hsame 3 (by omega)]

theorem commandOf_congr {buf buf' : Bytes} (hsame : ∀ i < 12, buf i = buf' i) :
    commandOf buf = commandOf buf' := by
  rw [commandOf, commandOf, hsame 2 (by omega), hsame 3 (by omega)]

theorem paraOf_congr {buf buf' : Bytes} (hsame : ∀ i < 12, buf i = buf' i) :
    paraOf buf = paraOf buf' :=
  bigEndian_congr fun j hj => hsame (8 + j) (by omega)

theorem packetLen_congr {buf buf' : Bytes} (hsame : ∀ i < 12, buf i = buf' i) :
    packetLen buf = packetLen buf' := by
  rw [packetLen, packetLen, bigEndian_congr fun j hj => hsame (4 + j) (by omega)]

theorem refused_congr {buf buf' : Bytes} (hsame : ∀ i < 12, buf i = buf' i) :
    refused buf = refused buf' := by
  rw [refused, refused, commandOf_congr hsame, paraOf_congr hsame]

namespace Device

theorem setAlarmRegion_congr (d : Device φ) {buf buf' : Bytes} (hsame : ∀ i < 12, buf i = buf' i) :
    d.setAlarmRegion buf = d.setAlarmRegion buf' := by
  unfold setAlarmRegion
  rw [hsame 10 (by omega), hsame 11 (by omega)]

theorem loadRegionData_congr (d : Device φ) {buf buf' : Bytes}
    (hsame : ∀ i < 1631 + zenithNumber, buf i = buf' i) :
    d.loadRegionData buf = d.loadRegionData buf' := by
  have hbuffer : (fun i : Fin targetNumber => buf (2 * i + 9) ++ buf (2 * i + 1 + 9)) =
      fun i : Fin targetNumber => buf' (2 * i + 9) ++ buf' (2 * i + 1 + 9) := by
    funext i
    have hi : i.val < 811 := i.isLt
    rw [hsame (2 * i + 9) (by omega), hsame (2 * i + 1 + 9) (by omega)]
  have hzenith : (fun i : Fin 150 =>
        if i.val < zenithNumber then buf (1631 + i) else d.alarmRegion.zenithSave i) =
      fun i : Fin 150 =>
        if i.val < zenithNumber then buf' (1631 + i) else d.alarmRegion.zenithSave i := by
    funext i
    split_ifs with hi
    · exact hsame _ (by omega)
    · rfl
  unfold loadRegionData
  rw [hsame 8 (by omega), hbuffer, hzenith]

/-- A command looks at no byte behind those it reads. -/
theorem execute_congr (d : Device φ) (driver : FlashDriver φ) (socket : ℕ) (para : Word)
    {buf buf' : Bytes} (hsame : ∀ i < commandReads d.pc2nios.command, buf i = buf' i) :
    d.execute driver socket buf para = d.execute driver socket buf' para := by
  have hcases := execute_cases
    (motive := fun command f => (∀ i < commandReads command, buf i = buf' i) → f buf = f buf')
    d driver socket para
  refine hcases ?_ (fun _ => rfl) ?_ (fun _ => rfl) (fun _ => rfl) (fun _ => rfl) (fun _ => rfl) ?_
    ?_ (fun _ => rfl) ?_ ?_ ?_ (fun _ => rfl) (fun _ _ _ _ _ _ => rfl) (fun _ _ _ _ => rfl) hsame
  · exact fun h => d.setAlarmRegion_congr h
  · exact fun h => d.loadRegionData_congr h
  · intro h
    have hsn : (fun i : Fin 16 => buf (8 + i)) = fun i : Fin 16 => buf' (8 + i) :=
      funext fun i => h (8 + i) (Nat.add_lt_add_left i.isLt 8)
    dsimp only
    rw [hsn]
  · intro h
    have htype : (fun i : Fin 20 => buf (8 + i)) = fun i : Fin 20 => buf' (8 + i) :=
      funext fun i => h (8 + i) (Nat.add_lt_add_left i.isLt 8)
    dsimp only
    rw [htype]
  · intro h
    have hpresdo : (fun i : Fin 30 => buf (8 + i)) = fun i : Fin 30 => buf' (8 + i) :=
      funext fun i => h (8 + i) (Nat.add_lt_add_left i.isLt 8)
    dsimp only
    rw [hpresdo]
  · intro h
    have hdata : (fun i : Fin 256 => buf (12 + i)) = fun i : Fin 256 => buf' (12 + i) :=
      funext fun i => h (12 + i) (Nat.add_lt_add_left i.isLt 12)
    have haddr : bigEndian buf 8 = bigEndian buf' 8 :=
      bigEndian_congr fun j hj => h (8 + j) (by show 8 + j < 12 + 256; omega)
    unfold remoteUpdateWrite
    dsimp only
    rw [hdata, haddr]
  · intro h
    have haddr : bigEndian buf 8 = bigEndian buf' 8 :=
      bigEndian_congr fun j hj => h (8 + j) (by show 8 + j < 12; omega)
    unfold remoteUpdateRead
    dsimp only
    rw [haddr]

theorem serve_congr (d : Device φ) (driver : FlashDriver φ) (socket : ℕ) {buf buf' : Bytes}
    (hsame : ∀ i < commandReads (commandOf buf), buf i = buf' i) :
    d.serve driver socket buf = d.serve driver socket buf' := by
  have hheader : ∀ i < 12, buf i = buf' i :=
    fun i hi => hsame i (hi.trans_le (le_commandReads _))
  have hread : d.readHeader buf = d.readHeader buf' := by
    unfold readHeader
    rw [hheader 0 (by omega), hheader 1 (by omega), hheader 2 (by omega), hheader 3 (by omega),
      bigEndian_congr fun j hj => hheader (4 + j) (by omega)]
  have hexecute : ∀ d' : Device φ, d'.pc2nios.command = commandOf buf →
      ∀ para, d'.execute driver socket buf para = d'.execute driver socket buf' para := by
    intro d' hcommand para
    exact execute_congr d' driver socket para (by rwa [hcommand])
  unfold serve
  dsimp only
  rw [hexecute (d.readHeader buf) rfl, hexecute _ (by rfl), hread, commandOf_congr hheader,
    paraOf_congr hheader, refused_congr hheader]

end Device

/-! ### One packet -/

theorem Memory.Holds.append {mem : Memory} {offset : Word} {left right : List Byte}
    (h : mem.Holds offset (left ++ right)) :
    mem.Holds offset left ∧ mem.Holds (offset + BitVec.ofNat 32 left.length) right := by
  constructor
  · intro i hi
    rw [h i (by rw [List.length_append]; omega), literal_append_left hi]
  · intro i hi
    have hright := h (left.length + i) (by rw [List.length_append]; omega)
    rw [literal_append_right] at hright
    rw [← hright, Memory.at, Memory.at, BitVec.ofNat_add, BitVec.add_assoc]

namespace CustomPacket

variable (p : CustomPacket)

theorem twelve_le : 12 ≤ p.bytes.length := by
  rw [p.size]
  omega

theorem packetLen_eq : packetLen (literal p.bytes) = BitVec.ofNat 32 p.bytes.length := by
  rw [packetLen, p.size, Nat.add_comm, BitVec.ofNat_add, BitVec.ofNat_toNat, BitVec.setWidth_eq]
  rfl

theorem first_ne_stx : literal p.bytes 0 ≠ 0x02 := by
  have hhead := p.head
  cases hbytes : p.bytes with
  | nil =>
      rw [hbytes] at hhead
      cases hhead
  | cons byte rest =>
      rw [hbytes, List.take_succ_cons, List.cons.injEq] at hhead
      show byte ≠ 0x02
      rw [hhead.1]
      decide

end CustomPacket

/-- The packet in the memory has the fields of the packet. -/
theorem Memory.Holds.header {mem : Memory} {offset : Word} {p : CustomPacket}
    (h : mem.Holds offset p.bytes) : ∀ i < 12, mem.at offset i = literal p.bytes i :=
  fun i hi => h i (hi.trans_le p.twelve_le)

namespace Call

variable (board : Board φ) (socket : ℕ) (mem : Memory)

theorem turn_custom {c : Call φ} (hrunning : c.running = true) {p : CustomPacket}
    (hholds : mem.Holds c.buf p.bytes) :
    c.turn board socket mem =
      if refused (literal p.bytes) then
        { c with dev := c.dev.serve board.driver socket (mem.at c.buf), returned := true }
      else
        { c with
          dev := c.dev.serve board.driver socket (mem.at c.buf)
          len := c.len - BitVec.ofNat 32 p.bytes.length
          buf := c.buf + BitVec.ofNat 32 p.bytes.length } := by
  have hcustom : mem.at c.buf 0 ≠ 0x02 := by
    rw [hholds.header 0 (by omega)]
    exact p.first_ne_stx
  have hrefused := refused_congr hholds.header
  have hlen : packetLen (mem.at c.buf) = BitVec.ofNat 32 p.bytes.length :=
    (packetLen_congr hholds.header).trans p.packetLen_eq
  cases hdecide : refused (literal p.bytes) with
  | true => exact turn_refused board socket mem hrunning hcustom (hrefused.trans hdecide)
  | false =>
      rw [turn_served board socket mem hrunning hcustom (hrefused.trans hdecide), Memory.next, hlen]
      rfl

end Call

/-- A packet as a call of its own handles it. -/
def Packet.handle (board : Board φ) (socket : ℕ) (buf : Bytes) (d : Device φ) : Packet → Device φ
  | custom _ => d.serve board.driver socket buf
  | telegram body =>
    d.sickProtocolProcess board.tim561 socket buf (BitVec.ofNat 32 (body.length + 2))

/-- The packets as one call handles them, `len` bytes from an offset on. -/
def handleAll (board : Board φ) (socket : ℕ) (mem : Memory) :
    Word → Word → List Packet → Device φ → Device φ
  | _, _, [], d => d
  | offset, len, .custom p :: rest, d =>
    if refused (literal p.bytes) then d.serve board.driver socket (mem.at offset)
    else
      handleAll board socket mem (offset + BitVec.ofNat 32 p.bytes.length)
        (len - BitVec.ofNat 32 p.bytes.length) rest
        (d.serve board.driver socket (mem.at offset))
  | offset, len, .telegram _ :: _, d =>
    d.sickProtocolProcess board.tim561 socket (mem.at offset) len

theorem Packet.length_pos (p : Packet) : 0 < p.bytes.length := by
  cases p with
  | custom p => exact Nat.lt_of_lt_of_le (by decide) p.twelve_le
  | telegram body => exact Nat.zero_lt_succ _

theorem ofNat_ne_zero {n : ℕ} (hpos : 0 < n) (hsize : n < 2 ^ 31) : BitVec.ofNat 32 n ≠ 0 := by
  intro hzero
  have hval := congrArg BitVec.toNat hzero
  rw [BitVec.toNat_ofNat, Nat.mod_eq_of_lt (by omega)] at hval
  exact hpos.ne' hval

section Calls

variable (board : Board φ) (socket : ℕ) (mem : Memory)

/-- The loop over well-formed packets ends after a turn for each. -/
theorem after_packets (packets : List Packet) {c : Call φ} (hreturned : c.returned = false)
    (hlen : c.len = BitVec.ofNat 32 (packets.flatMap Packet.bytes).length)
    (hsize : (packets.flatMap Packet.bytes).length < 2 ^ 31)
    (hholds : mem.Holds c.buf (packets.flatMap Packet.bytes)) {fuel : ℕ}
    (hfuel : packets.length ≤ fuel) :
    (c.after board socket mem fuel).running = false ∧
      (c.after board socket mem fuel).dev = handleAll board socket mem c.buf c.len packets c.dev := by
  induction packets generalizing c fuel with
  | nil =>
      have hrunning : c.running = false := by
        rw [Call.running, hlen]
        exact Bool.and_false _
      rw [Call.after_of_not_running board socket mem hrunning]
      exact ⟨hrunning, rfl⟩
  | cons p rest ih =>
      rw [List.flatMap_cons] at hlen hsize hholds
      rw [List.length_append] at hlen hsize
      obtain ⟨hp, hrest⟩ := hholds.append
      have hpos := p.length_pos
      have hrunning : c.running = true := by
        rw [Call.running, hreturned, Bool.not_false, Bool.true_and, bne_iff_ne, hlen]
        exact ofNat_ne_zero (by omega) hsize
      obtain ⟨fuel, rfl⟩ := Nat.exists_eq_succ_of_ne_zero
        (show fuel ≠ 0 from Nat.ne_of_gt (Nat.lt_of_lt_of_le (Nat.zero_lt_succ _) hfuel))
      rw [Call.after_succ]
      cases p with
      | telegram body =>
          have hstx : mem.at c.buf 0 = 0x02 := hp 0 hpos
          have hstop : ((c.turn board socket mem).running) = false := by
            rw [Call.turn_telegram board socket mem hrunning hstx, Call.running]
            simp
          rw [Call.after_of_not_running board socket mem hstop]
          refine ⟨hstop, ?_⟩
          rw [Call.turn_telegram board socket mem hrunning hstx, handleAll]
      | custom p =>
          have hturn := Call.turn_custom board socket mem hrunning hp
          cases hrefused : refused (literal p.bytes) with
          | true =>
              rw [hrefused, if_pos rfl] at hturn
              have hstop : ((c.turn board socket mem).running) = false := by
                rw [hturn]
                rfl
              rw [Call.after_of_not_running board socket mem hstop, hturn]
              refine ⟨rfl, ?_⟩
              rw [handleAll, hrefused, if_pos rfl]
          | false =>
              rw [hrefused, if_neg Bool.false_ne_true] at hturn
              have hrestlen : c.len - BitVec.ofNat 32 p.bytes.length =
                  BitVec.ofNat 32 (rest.flatMap Packet.bytes).length := by
                rw [hlen, BitVec.ofNat_add, BitVec.add_comm]
                exact BitVec.add_sub_cancel _ _
              rw [handleAll, hrefused, if_neg Bool.false_ne_true, hturn]
              exact ih (c := { c with
                  dev := c.dev.serve board.driver socket (mem.at c.buf)
                  len := c.len - BitVec.ofNat 32 p.bytes.length
                  buf := c.buf + BitVec.ofNat 32 p.bytes.length })
                hreturned hrestlen (by omega) hrest (Nat.le_of_succ_le_succ hfuel)

theorem pc2devParse_packets (packets : List Packet) (d : Device φ)
    (hsize : (packets.flatMap Packet.bytes).length < 2 ^ 31)
    (hholds : mem.Holds 0 (packets.flatMap Packet.bytes)) {fuel : ℕ}
    (hfuel : packets.length ≤ fuel) :
    pc2devParse board socket mem (BitVec.ofNat 32 (packets.flatMap Packet.bytes).length) fuel d =
      some (handleAll board socket mem 0
        (BitVec.ofNat 32 (packets.flatMap Packet.bytes).length) packets d) := by
  obtain ⟨hstop, hdev⟩ := after_packets board socket mem packets
    (c := Call.enter d (BitVec.ofNat 32 (packets.flatMap Packet.bytes).length)) rfl rfl hsize hholds
    hfuel
  rw [pc2devParse, if_neg (by rw [hstop]; exact Bool.false_ne_true), hdev]
  rfl

theorem pc2devParse_packet (p : Packet) (d : Device φ) (hsize : p.bytes.length < 2 ^ 31)
    (hholds : mem.Holds 0 p.bytes) {fuel : ℕ} (hfuel : 1 ≤ fuel) :
    pc2devParse board socket mem (BitVec.ofNat 32 p.bytes.length) fuel d =
      some (p.handle board socket (mem.at 0) d) := by
  have hflat : [p].flatMap Packet.bytes = p.bytes := by simp
  have hparse := pc2devParse_packets board socket mem [p] d (by rwa [hflat]) (by rwa [hflat]) hfuel
  rw [hflat] at hparse
  rw [hparse]
  cases p with
  | custom p =>
      rw [handleAll, handleAll, ite_self]
      rfl
  | telegram body =>
      have hlength : (Packet.telegram body).bytes.length = body.length + 2 := by
        simp [Packet.bytes]
      rw [handleAll, hlength]
      rfl

/-- The packets, each in its own call. -/
def handleEach : List Delivery → Device φ → Device φ
  | [], d => d
  | p :: rest, d => handleEach rest (p.packet.handle board socket (p.memory.at 0) d)

theorem oneByOne_eq (deliveries : List Delivery) (d : Device φ)
    (hsize : ∀ p ∈ deliveries, p.packet.bytes.length < 2 ^ 31) {fuel : ℕ}
    (hfuel : deliveries.length ≤ fuel) :
    oneByOne board socket fuel deliveries d = some (handleEach board socket deliveries d) := by
  induction deliveries generalizing d with
  | nil => rfl
  | cons p rest ih =>
      rw [List.length_cons] at hfuel
      rw [oneByOne, pc2devParse_packet board socket p.memory p.packet d
        (hsize p List.mem_cons_self) p.holds (by omega), Option.bind_some, handleEach]
      exact ih _ (fun q hq => hsize q (List.mem_cons_of_mem p hq)) (by omega)

end Calls

/-! ### Telegrams that the table knows -/

theorem toInt_ofNat {n : ℕ} (hsize : n < 2 ^ 31) : (BitVec.ofNat 32 n).toInt = n := by
  have hval : (BitVec.ofNat 32 n).toNat = n := by
    rw [BitVec.toNat_ofNat]
    exact Nat.mod_eq_of_lt (by omega)
  rw [BitVec.toInt_eq_toNat_of_lt (by omega), hval]

section Telegram

variable {mem : Memory} {offset : Word} {body : List Byte}

theorem telegram_length : (Packet.telegram body).bytes.length = body.length + 2 := by
  simp [Packet.bytes]

theorem literal_telegram {i : ℕ} (hi : i < body.length) :
    literal (Packet.telegram body).bytes (i + 1) = literal body i := by
  show literal (body ++ [0x03]) i = literal body i
  exact literal_append_left hi

theorem telegram_etx (hholds : mem.Holds offset (Packet.telegram body).bytes) :
    mem.at offset (body.length + 1) = 0x03 := by
  rw [hholds _ (by rw [telegram_length]; omega)]
  show literal (body ++ [0x03]) (body.length + 0) = 0x03
  rw [literal_append_right]
  rfl

theorem findIndex_telegram_iff (t : Tim561)
    (hholds : mem.Holds offset (Packet.telegram body).bytes) :
    (findIndex t (fun i => mem.at offset (i + 1)) body.length).isSome = true ↔
      ¬ (Packet.telegram body).Ignored t := by
  rw [findIndex_eq_some_iff_exists, Packet.Ignored, not_forall]
  refine exists_congr fun i => ?_
  rw [not_not]
  have hrecv : ∀ j < body.length, mem.at offset (j + 1) = literal body j := by
    intro j hj
    rw [hholds _ (by rw [telegram_length]; omega), literal_telegram hj]
  constructor
  · rintro ⟨hlength, hmatch⟩
    refine List.ext_get hlength ?_
    intro j hj hj'
    have hbyte := hmatch j hj'
    rw [hrecv j hj', (t.tim561Index i).byte_of_lt hj] at hbyte
    rw [← hbyte]
    simp [literal, hj']
  · rintro rfl
    refine ⟨rfl, ?_⟩
    intro j hj
    rw [hrecv j hj, (t.tim561Index i).byte_of_lt hj]
    simp [literal, hj]

variable (board : Board φ) (socket : ℕ) (d : Device φ)

theorem handle_ignored (hholds : mem.Holds offset (Packet.telegram body).bytes)
    (hsize : (Packet.telegram body).bytes.length < 2 ^ 31)
    (hignored : (Packet.telegram body).Ignored board.tim561) :
    (Packet.telegram body).handle board socket (mem.at offset) d = d := by
  rw [telegram_length] at hsize
  rw [Packet.handle]
  refine d.sickProtocolProcess_of_none board.tim561 socket ?_
  have hcount : (BitVec.ofNat 32 (body.length + 2)).toInt - 2 = (body.length : ℤ) := by
    rw [toInt_ofNat hsize]
    omega
  rw [hcount, ← Option.not_isSome_iff_eq_none, findIndex_telegram_iff board.tim561 hholds, not_not]
  exact hignored

theorem telegram_swallowed (hholds : mem.Holds offset (Packet.telegram body).bytes) {n : ℕ}
    (hmore : (Packet.telegram body).bytes.length < n) (hsize : n < 2 ^ 31) :
    d.sickProtocolProcess board.tim561 socket (mem.at offset) (BitVec.ofNat 32 n) = d := by
  rw [telegram_length] at hmore
  refine d.sickProtocolProcess_of_none board.tim561 socket ?_
  have hcount : (BitVec.ofNat 32 n).toInt - 2 = ((n - 2 : ℕ) : ℤ) := by
    rw [toInt_ofNat hsize]
    omega
  rw [hcount]
  exact findIndex_eq_none board.tim561 (by omega) (telegram_etx hholds)

end Telegram

/-! ### What cannot be lost -/

namespace Device

/-- `SysPara.pc_command_value`. -/
def count (d : Device φ) : Word := d.nios.sysPara.word .pcCommandValue

theorem count_eq_of_effect {d d' : Device φ} (heffect : d.effect = d'.effect) :
    d.count = d'.count :=
  congrArg (fun e => e.sysPara.word .pcCommandValue) heffect

/-- A packet of the custom protocol counts, and its replies depend on its header alone. -/
theorem serve_counts (d : Device φ) (driver : FlashDriver φ) (socket : ℕ) (buf : Bytes) :
    (d.serve driver socket buf).count = d.count + 1 ∧
      (d.serve driver socket buf).nios.sent.length = d.nios.sent.length +
        if refused buf then 0 else replies (commandOf buf) (paraOf buf) := by
  have hread : ∀ d' : Device φ, d'.pc2nios.command = commandOf buf → d'.count = d.count + 1 →
      d'.nios.sent = d.nios.sent →
      (d'.execute driver socket buf (paraOf buf)).count = d.count + 1 ∧
        (d'.execute driver socket buf (paraOf buf)).nios.sent.length =
          d.nios.sent.length + replies (commandOf buf) (paraOf buf) := by
    intro d' hcommand hcount hsent
    have hpasses := execute_passes d' driver socket buf (paraOf buf)
    rw [hcommand] at hpasses
    refine ⟨hpasses.pcCommandValue.trans hcount, ?_⟩
    rw [hpasses.sent, hsent]
  have hcounted : (d.readHeader buf).count = d.count + 1 := SysPara.set_self _ _ _
  unfold serve
  dsimp only
  cases hrefused : refused buf with
  | true =>
      have hcommand : commandOf buf = pcSetAlarmRegion := by
        rw [refused, Bool.and_eq_true, beq_iff_eq] at hrefused
        exact hrefused.1
      rw [if_pos hcommand, if_pos rfl, if_pos rfl]
      exact ⟨hcounted, rfl⟩
  | false =>
      rw [if_neg Bool.false_ne_true, if_neg Bool.false_ne_true]
      split_ifs
      · exact hread _ rfl hcounted rfl
      · exact hread _ rfl hcounted rfl

end Device

/-- The packets of the custom protocol among the deliveries. -/
def customs (deliveries : List Delivery) : ℕ :=
  deliveries.countP fun p => match p.packet with
    | .custom _ => true
    | .telegram _ => false

section Counts

variable (board : Board φ) (socket : ℕ)

theorem handle_telegram_tells {p : Delivery} {body : List Byte} (hp : p.packet = .telegram body)
    (hsize : p.packet.bytes.length < 2 ^ 31) (d : Device φ) :
    (p.packet.handle board socket (p.memory.at 0) d).count = d.count ∧
      d.nios.sent.length ≤ (p.packet.handle board socket (p.memory.at 0) d).nios.sent.length ∧
      (d.nios.sent.length = (p.packet.handle board socket (p.memory.at 0) d).nios.sent.length →
        p.packet.Ignored board.tim561) := by
  have hholds := p.holds
  rw [hp] at hholds hsize ⊢
  rw [telegram_length] at hsize
  have hcount : (BitVec.ofNat 32 (body.length + 2)).toInt - 2 = (body.length : ℤ) := by
    rw [toInt_ofNat hsize]
    omega
  have htells := Device.sickProtocolProcess_tells d board.tim561 socket (p.memory.at 0)
    (BitVec.ofNat 32 (body.length + 2))
  rw [hcount] at htells
  rw [Packet.handle]
  refine ⟨htells.pcCommandValue, (Nat.le_add_right _ _).trans htells.sent, ?_⟩
  intro hsilent
  by_contra hknown
  rw [if_pos ((findIndex_telegram_iff board.tim561 hholds).mpr hknown)] at htells
  have hmore := htells.sent
  omega

theorem handleEach_count (deliveries : List Delivery)
    (hsize : ∀ p ∈ deliveries, p.packet.bytes.length < 2 ^ 31) (d : Device φ) :
    (handleEach board socket deliveries d).count =
      d.count + BitVec.ofNat 32 (customs deliveries) := by
  induction deliveries generalizing d with
  | nil => exact (BitVec.add_zero d.count).symm
  | cons p rest ih =>
      rw [handleEach, ih fun q hq => hsize q (List.mem_cons_of_mem p hq)]
      cases hp : p.packet with
      | custom q =>
          have hcustoms : customs (p :: rest) = customs rest + 1 := by
            simp [customs, hp]
          rw [hcustoms, Packet.handle, (d.serve_counts _ _ _).1, BitVec.ofNat_add,
            BitVec.add_assoc, BitVec.add_comm 1]
          rfl
      | telegram body =>
          have hcustoms : customs (p :: rest) = customs rest := by
            simp [customs, hp]
          rw [hcustoms, ← hp, (handle_telegram_tells board socket hp (hsize p List.mem_cons_self) d).1]

theorem handle_sent_le (p : Delivery) (hsize : p.packet.bytes.length < 2 ^ 31) (d : Device φ) :
    d.nios.sent.length ≤ (p.packet.handle board socket (p.memory.at 0) d).nios.sent.length := by
  cases hp : p.packet with
  | custom q =>
      rw [Packet.handle, (d.serve_counts _ _ _).2]
      exact Nat.le_add_right _ _
  | telegram body =>
      rw [← hp]
      exact (handle_telegram_tells board socket hp hsize d).2.1

theorem handleEach_sent_le (deliveries : List Delivery)
    (hsize : ∀ p ∈ deliveries, p.packet.bytes.length < 2 ^ 31) (d : Device φ) :
    d.nios.sent.length ≤ (handleEach board socket deliveries d).nios.sent.length := by
  induction deliveries generalizing d with
  | nil => exact le_refl _
  | cons p rest ih =>
      exact (handle_sent_le board socket p (hsize p List.mem_cons_self) d).trans
        (ih (fun q hq => hsize q (List.mem_cons_of_mem p hq)) _)

/-- Deliveries without a trace are telegrams that the table does not know. -/
theorem ignored_of_silent (deliveries : List Delivery)
    (hsize : ∀ p ∈ deliveries, p.packet.bytes.length < 2 ^ 31)
    (htelegrams : ∀ p ∈ deliveries, ∃ body, p.packet = .telegram body) (d : Device φ)
    (hsilent : d.nios.sent.length = (handleEach board socket deliveries d).nios.sent.length) :
    ∀ p ∈ deliveries, p.packet.Ignored board.tim561 := by
  induction deliveries generalizing d with
  | nil => intro p hp; cases hp
  | cons p rest ih =>
      have hrestsize : ∀ q ∈ rest, q.packet.bytes.length < 2 ^ 31 :=
        fun q hq => hsize q (List.mem_cons_of_mem p hq)
      obtain ⟨body, hp⟩ := htelegrams p List.mem_cons_self
      obtain ⟨-, hle, hignored⟩ :=
        handle_telegram_tells board socket hp (hsize p List.mem_cons_self) d
      have hrest := handleEach_sent_le board socket rest hrestsize
        (p.packet.handle board socket (p.memory.at 0) d)
      rw [handleEach] at hsilent
      intro q hq
      obtain rfl | hq := List.mem_cons.mp hq
      · exact hignored (by omega)
      · exact ih hrestsize (fun q hq => htelegrams q (List.mem_cons_of_mem p hq))
          (p.packet.handle board socket (p.memory.at 0) d) (by omega) q hq

theorem telegrams_of_customs_zero {deliveries : List Delivery} (hzero : customs deliveries = 0) :
    ∀ p ∈ deliveries, ∃ body, p.packet = .telegram body := by
  intro p hp
  have hnot := List.countP_eq_zero.mp hzero p hp
  cases hpacket : p.packet with
  | custom q =>
      rw [hpacket] at hnot
      exact absurd rfl hnot
  | telegram body => exact ⟨body, rfl⟩

end Counts

/-! ### The two ways compared -/

section Compare

variable (board : Board φ) (socket : ℕ) (mem : Memory)

theorem handleEach_ignored (deliveries : List Delivery)
    (hsize : ∀ p ∈ deliveries, p.packet.bytes.length < 2 ^ 31)
    (hignored : ∀ p ∈ deliveries, p.packet.Ignored board.tim561) (d : Device φ) :
    handleEach board socket deliveries d = d := by
  induction deliveries generalizing d with
  | nil => rfl
  | cons p rest ih =>
      have hp : p.packet.handle board socket (p.memory.at 0) d = d := by
        have hnone := hignored p List.mem_cons_self
        have hholds := p.holds
        have hlength := hsize p List.mem_cons_self
        cases hpacket : p.packet with
        | custom q =>
            rw [hpacket] at hnone
            exact hnone.elim
        | telegram body =>
            rw [hpacket] at hnone hholds hlength
            exact handle_ignored board socket d hholds hlength hnone
      rw [handleEach, hp]
      exact ih (fun q hq => hsize q (List.mem_cons_of_mem p hq))
        (fun q hq => hignored q (List.mem_cons_of_mem p hq)) d

/-- A packet in its own call is handled as in the call for all packets. -/
theorem serve_same {p : Delivery} {q : CustomPacket} (hp : p.packet = .custom q) {offset : Word}
    (hholds : mem.Holds offset q.bytes)
    (hbehind : ∀ i, p.packet.bytes.length ≤ i → i < p.packet.reads →
      p.memory.at 0 i = mem.at offset i) (d : Device φ) :
    d.serve board.driver socket (p.memory.at 0) = d.serve board.driver socket (mem.at offset) := by
  have hown := p.holds
  rw [hp] at hown hbehind
  have hcommand : commandOf (p.memory.at 0) = commandOf (literal q.bytes) :=
    commandOf_congr hown.header
  refine d.serve_congr board.driver socket ?_
  intro i hi
  rw [hcommand] at hi
  by_cases hinside : i < q.bytes.length
  · rw [hown i hinside, hholds i hinside]
    rfl
  · exact hbehind i (Nat.le_of_not_lt hinside) hi

theorem ofNat_length_behind (here behind : List Byte) :
    BitVec.ofNat 32 (here ++ behind).length - BitVec.ofNat 32 here.length =
      BitVec.ofNat 32 behind.length := by
  rw [List.length_append, BitVec.ofNat_add, BitVec.add_comm]
  exact BitVec.add_sub_cancel _ _

theorem length_le_total {deliveries : List Delivery} {n : ℕ}
    (hsize : ((packetsOf deliveries).flatMap Packet.bytes).length < n) :
    ∀ p ∈ deliveries, p.packet.bytes.length < n := by
  induction deliveries with
  | nil => intro p hp; cases hp
  | cons p rest ih =>
      rw [packetsOf, List.map_cons, List.flatMap_cons, List.length_append] at hsize
      intro q hq
      obtain rfl | hq := List.mem_cons.mp hq
      · omega
      · exact ih (Nat.lt_of_le_of_lt (Nat.le_add_left _ _) hsize) q hq

/-- The last telegram of a call is handled as in its own call. -/
theorem last_telegram_same {p : Delivery} {body : List Byte} (hp : p.packet = .telegram body)
    {offset : Word} (hholds : mem.Holds offset (Packet.telegram body).bytes)
    (hsize : (Packet.telegram body).bytes.length < 2 ^ 31) (d : Device φ) :
    d.sickProtocolProcess board.tim561 socket (mem.at offset)
        (BitVec.ofNat 32 (body.length + 2)) =
      d.sickProtocolProcess board.tim561 socket (p.memory.at 0)
        (BitVec.ofNat 32 (body.length + 2)) := by
  have hown := p.holds
  rw [hp] at hown
  rw [telegram_length] at hsize
  refine d.sickProtocolProcess_congr board.tim561 socket (toInt_ofNat hsize) ?_
    (telegram_etx hholds)
  intro i hi
  rw [← telegram_length] at hi
  rw [hholds i hi, hown i hi]

theorem handleAll_eq_handleEach (deliveries : List Delivery) {offset : Word}
    (hsize : ((packetsOf deliveries).flatMap Packet.bytes).length < 2 ^ 31)
    (hholds : mem.Holds offset ((packetsOf deliveries).flatMap Packet.bytes))
    (hbehind : SameBehind mem offset deliveries)
    (hbatchable : Packet.Batchable board.tim561 (packetsOf deliveries)) (d : Device φ) :
    handleAll board socket mem offset
        (BitVec.ofNat 32 ((packetsOf deliveries).flatMap Packet.bytes).length) (packetsOf deliveries)
        d =
      handleEach board socket deliveries d := by
  induction deliveries generalizing offset d with
  | nil => rfl
  | cons p rest ih =>
      have hsizes := length_le_total hsize
      have hrestsizes : ∀ q ∈ rest, q.packet.bytes.length < 2 ^ 31 :=
        fun q hq => hsizes q (List.mem_cons_of_mem p hq)
      obtain ⟨hhere, hbehindrest⟩ := hbehind
      rw [packetsOf, List.map_cons, List.flatMap_cons] at hsize hholds
      obtain ⟨hp, hrest⟩ := hholds.append
      rw [packetsOf, List.map_cons] at hbatchable ⊢
      rw [List.flatMap_cons]
      cases hpacket : p.packet with
      | custom q =>
          rw [hpacket] at hp hbatchable hbehindrest hrest hsize
          have hserve := serve_same board socket mem hpacket hp hhere d
          rw [handleAll, handleEach, hpacket, Packet.handle, hserve]
          rw [Packet.Batchable] at hbatchable
          cases hrefused : refused (literal q.bytes) with
          | true =>
              rw [hrefused, if_pos rfl] at hbatchable
              rw [if_pos rfl]
              refine (handleEach_ignored board socket rest hrestsizes ?_ _).symm
              exact fun r hr => hbatchable r.packet (List.mem_map_of_mem hr)
          | false =>
              rw [hrefused, if_neg Bool.false_ne_true] at hbatchable
              rw [if_neg Bool.false_ne_true]
              rw [Packet.bytes, ofNat_length_behind]
              rw [List.length_append] at hsize
              exact ih (Nat.lt_of_le_of_lt (Nat.le_add_left _ _) hsize) hrest hbehindrest hbatchable _
      | telegram body =>
          rw [hpacket] at hp hbatchable hsize
          rw [handleAll]
          cases rest with
          | nil =>
              have hlength : ((Packet.telegram body).bytes ++
                  (([] : List Delivery).map Delivery.packet).flatMap Packet.bytes).length =
                  body.length + 2 := by
                rw [List.map_nil, List.flatMap_nil, List.append_nil, telegram_length]
              rw [hlength] at hsize ⊢
              rw [handleEach, handleEach, hpacket, Packet.handle]
              exact last_telegram_same board socket mem hpacket hp (by rwa [telegram_length]) d
          | cons q rest =>
              have hignored : ∀ r ∈ p :: q :: rest, r.packet.Ignored board.tim561 := by
                obtain hnil | hignored := hbatchable
                · cases hnil
                · intro r hr
                  rw [← hpacket, ← List.map_cons] at hignored
                  exact hignored r.packet (List.mem_map_of_mem hr)
              rw [handleEach_ignored board socket _ hsizes hignored d]
              refine telegram_swallowed board socket d hp ?_ hsize
              rw [List.length_append, List.map_cons, List.flatMap_cons, List.length_append]
              have hpos := q.packet.length_pos
              omega

theorem customs_le_length (deliveries : List Delivery) :
    customs deliveries ≤ ((packetsOf deliveries).flatMap Packet.bytes).length := by
  induction deliveries with
  | nil => exact le_refl _
  | cons p rest ih =>
      have hpos := p.packet.length_pos
      have hle : customs (p :: rest) ≤ customs rest + 1 := by
        unfold customs
        rw [List.countP_cons]
        split_ifs <;> omega
      rw [packetsOf, List.map_cons, List.flatMap_cons, List.length_append]
      unfold packetsOf at ih
      omega

/-- Deliveries that neither count nor reply are telegrams that the table does not know. -/
theorem ignored_of_no_trace (deliveries : List Delivery)
    (hsize : ((packetsOf deliveries).flatMap Packet.bytes).length < 2 ^ 31) {d : Device φ}
    (hcount : d.count = (handleEach board socket deliveries d).count)
    (hsent : d.nios.sent.length = (handleEach board socket deliveries d).nios.sent.length) :
    ∀ p ∈ packetsOf deliveries, p.Ignored board.tim561 := by
  have hsizes := length_le_total hsize
  rw [handleEach_count board socket deliveries hsizes d] at hcount
  have hzero : BitVec.ofNat 32 (customs deliveries) = 0 := by
    have hsub := congrArg (fun x => x - d.count) hcount
    rw [BitVec.add_comm] at hsub
    simpa [BitVec.add_sub_cancel] using hsub.symm
  have hnone : customs deliveries = 0 := by
    have hle := customs_le_length deliveries
    by_contra hsome
    exact ofNat_ne_zero (by omega) (by omega) hzero
  have hignored := ignored_of_silent board socket deliveries hsizes
    (telegrams_of_customs_zero hnone) d hsent
  intro q hq
  obtain ⟨p, hp, rfl⟩ := List.mem_map.mp hq
  exact hignored p hp

/-- If both ways count and reply alike, the packets are batchable, whatever they did otherwise. -/
theorem batchable_of_counts (deliveries : List Delivery) {offset : Word}
    (hsize : ((packetsOf deliveries).flatMap Packet.bytes).length < 2 ^ 31)
    (hholds : mem.Holds offset ((packetsOf deliveries).flatMap Packet.bytes)) {d d' : Device φ}
    (hcount : d.count = d'.count) (hsent : d.nios.sent.length = d'.nios.sent.length)
    (hcounts : (handleAll board socket mem offset
        (BitVec.ofNat 32 ((packetsOf deliveries).flatMap Packet.bytes).length) (packetsOf deliveries)
        d).count = (handleEach board socket deliveries d').count)
    (hreplies : (handleAll board socket mem offset
        (BitVec.ofNat 32 ((packetsOf deliveries).flatMap Packet.bytes).length) (packetsOf deliveries)
        d).nios.sent.length = (handleEach board socket deliveries d').nios.sent.length) :
    Packet.Batchable board.tim561 (packetsOf deliveries) := by
  induction deliveries generalizing offset d d' with
  | nil => trivial
  | cons p rest ih =>
      have hwhole := hsize
      rw [packetsOf, List.map_cons, List.flatMap_cons] at hsize hholds
      obtain ⟨hp, hrest⟩ := hholds.append
      rw [packetsOf, List.map_cons, List.flatMap_cons] at hcounts hreplies
      rw [packetsOf, List.map_cons]
      have hrestsize : ((packetsOf rest).flatMap Packet.bytes).length < 2 ^ 31 := by
        rw [List.length_append] at hsize
        exact Nat.lt_of_le_of_lt (Nat.le_add_left _ _) hsize
      cases hpacket : p.packet with
      | custom q =>
          rw [hpacket] at hp hrest hcounts hreplies
          have hown := p.holds
          rw [hpacket] at hown
          -- both calls see the same header
          have hall := d.serve_counts board.driver socket (mem.at offset)
          have heach := d'.serve_counts board.driver socket (p.memory.at 0)
          rw [refused_congr hp.header, commandOf_congr hp.header, paraOf_congr hp.header] at hall
          rw [refused_congr hown.header, commandOf_congr hown.header, paraOf_congr hown.header]
            at heach
          have hcount' : (d.serve board.driver socket (mem.at offset)).count =
              (d'.serve board.driver socket (p.memory.at 0)).count := by
            rw [hall.1, heach.1, hcount]
          have hsent' : (d.serve board.driver socket (mem.at offset)).nios.sent.length =
              (d'.serve board.driver socket (p.memory.at 0)).nios.sent.length := by
            rw [hall.2, heach.2, hsent]
          rw [handleAll, handleEach, hpacket, Packet.handle] at hcounts hreplies
          rw [Packet.Batchable]
          cases hrefused : refused (literal q.bytes) with
          | true =>
              rw [hrefused, if_pos rfl] at hcounts hreplies
              rw [if_pos rfl]
              exact ignored_of_no_trace board socket rest hrestsize (hcount'.symm.trans hcounts)
                (hsent'.symm.trans hreplies)
          | false =>
              rw [hrefused, if_neg Bool.false_ne_true] at hcounts hreplies
              rw [if_neg Bool.false_ne_true]
              rw [Packet.bytes, ofNat_length_behind] at hcounts hreplies
              exact ih hrestsize hrest hcount' hsent' hcounts hreplies
      | telegram body =>
          rw [hpacket] at hp hcounts hreplies hsize
          cases rest with
          | nil => exact Or.inl rfl
          | cons q rest =>
              have hswallowed := telegram_swallowed board socket d hp (by
                rw [List.length_append, List.map_cons, List.flatMap_cons, List.length_append]
                have hpos := q.packet.length_pos
                omega) hsize
              rw [handleAll, hswallowed] at hcounts hreplies
              have hignored := ignored_of_no_trace board socket (p :: q :: rest) hwhole
                (hcount.symm.trans hcounts) (hsent.symm.trans hreplies)
              rw [packetsOf, List.map_cons, hpacket] at hignored
              exact Or.inr hignored

end Compare

/-- **Batching.** One call on the packets has the effect of one call for each of them only if they are
batchable; and it has, if they are and each is handled on the same bytes. -/
theorem batch_same_effect (board : Board φ) (socket fuel : ℕ) (mem : Memory)
    (deliveries : List Delivery) (d : Device φ)
    (hsize : ((packetsOf deliveries).flatMap Packet.bytes).length < 2 ^ 31)
    (hholds : mem.Holds 0 ((packetsOf deliveries).flatMap Packet.bytes))
    (hfuel : deliveries.length ≤ fuel) :
    ∃ all each,
      pc2devParse board socket mem
          (BitVec.ofNat 32 ((packetsOf deliveries).flatMap Packet.bytes).length) fuel d = some all ∧
        oneByOne board socket fuel deliveries d = some each ∧
        (all.effect = each.effect → Packet.Batchable board.tim561 (packetsOf deliveries)) ∧
        (Packet.Batchable board.tim561 (packetsOf deliveries) → SameBehind mem 0 deliveries →
          all.effect = each.effect) := by
  refine ⟨_, _, pc2devParse_packets board socket mem (packetsOf deliveries) d hsize hholds
      (by rwa [packetsOf, List.length_map]),
    oneByOne_eq board socket deliveries d (length_le_total hsize) hfuel, ?_, ?_⟩
  · intro heffect
    have hreplies := congrArg (fun e => e.sent.length) heffect
    exact batchable_of_counts board socket mem deliveries hsize hholds rfl rfl
      (Device.count_eq_of_effect heffect) hreplies
  · intro hbatchable hbehind
    rw [handleAll_eq_handleEach board socket mem deliveries hsize hholds hbehind hbatchable d]

/-- Packets that carry all that their commands read are handled on the same bytes. -/
theorem sameBehind_of_complete {mem : Memory} {deliveries : List Delivery} {offset : Word}
    (hcomplete : ∀ p ∈ deliveries, p.packet.reads ≤ p.packet.bytes.length) :
    SameBehind mem offset deliveries := by
  induction deliveries generalizing offset with
  | nil => trivial
  | cons p rest ih =>
      refine ⟨?_, ih fun q hq => hcomplete q (List.mem_cons_of_mem p hq)⟩
      intro i hbehind hread
      have hle := hcomplete p List.mem_cons_self
      omega

/-- A receive buffer that begins with the bytes. -/
def received (bytes : List Byte) : Memory := fun a => literal bytes a.toNat

theorem holds_received {bytes : List Byte} (hsize : bytes.length < 2 ^ 31) :
    (received bytes).Holds 0 bytes := by
  intro i hi
  have hindex : (0#32 + BitVec.ofNat 32 i).toNat = i := by
    rw [BitVec.zero_add, BitVec.toNat_ofNat]
    exact Nat.mod_eq_of_lt (by omega)
  rw [Memory.at, received]
  exact congrArg (literal bytes) hindex

/-- `PC_SAVA_SYS_PARA`. -/
def savePacket : CustomPacket where
  bytes := [0x12, 0x34, 0x40, 0x07, 0x00, 0x00, 0x00, 0x00, 0x00, 0x00, 0x00, 0x00]
  head := rfl
  size := by decide

def saveDelivery : Delivery where
  packet := .custom savePacket
  memory := received savePacket.bytes
  holds := holds_received (by decide)

/-- `"sRI 1"` between STX and ETX. -/
def telegramDelivery : Delivery where
  packet := .telegram sRI1.text
  memory := received (Packet.telegram sRI1.text).bytes
  holds := holds_received (by decide)

theorem batch_same_effect_save_telegram :
    ∃ all each,
      pc2devParse sRI1Board 0 (received (savePacket.bytes ++ [0x02, 0x73, 0x52, 0x49, 0x20, 0x31, 0x03]))
          19 2 zeroedDevice = some all ∧
        oneByOne sRI1Board 0 2 [saveDelivery, telegramDelivery] zeroedDevice = some each ∧
        all.effect = each.effect := by
  obtain ⟨all, each, hall, heach, -, hsame⟩ := batch_same_effect sRI1Board 0 2
    (received (savePacket.bytes ++ [0x02, 0x73, 0x52, 0x49, 0x20, 0x31, 0x03]))
    [saveDelivery, telegramDelivery] zeroedDevice (by decide) (holds_received (by decide)) (by decide)
  refine ⟨all, each, hall, heach, hsame ?_ (sameBehind_of_complete ?_)⟩
  · show if refused (literal savePacket.bytes) then _ else _
    rw [if_neg (by decide)]
    exact Or.inl rfl
  · intro p hp
    obtain rfl | hp := List.mem_cons.mp hp
    · decide
    · obtain rfl := List.mem_singleton.mp hp
      decide

/-- A telegram and then a packet, which is lost. -/
theorem batch_loses_packet :
    ∃ all each,
      pc2devParse sRI1Board 0 (received ([0x02, 0x73, 0x52, 0x49, 0x20, 0x31, 0x03] ++ savePacket.bytes))
          19 2 zeroedDevice = some all ∧
        oneByOne sRI1Board 0 2 [telegramDelivery, saveDelivery] zeroedDevice = some each ∧
        all.effect ≠ each.effect := by
  have hholds : (received ([0x02, 0x73, 0x52, 0x49, 0x20, 0x31, 0x03] ++ savePacket.bytes)).Holds 0
      ((packetsOf [telegramDelivery, saveDelivery]).flatMap Packet.bytes) :=
    holds_received (by decide)
  have hsizes : ∀ p ∈ [telegramDelivery, saveDelivery], p.packet.bytes.length < 2 ^ 31 :=
    length_le_total (by decide)
  refine ⟨_, _, pc2devParse_packets sRI1Board 0 _ (packetsOf [telegramDelivery, saveDelivery])
      zeroedDevice (by decide) hholds (by decide),
    oneByOne_eq sRI1Board 0 [telegramDelivery, saveDelivery] zeroedDevice hsizes (by decide), ?_⟩
  intro heffect
  have hcount := Device.count_eq_of_effect heffect
  rw [handleEach_count sRI1Board 0 [telegramDelivery, saveDelivery] hsizes zeroedDevice] at hcount
  rw [packetsOf, List.map_cons, show telegramDelivery.packet = .telegram sRI1.text from rfl, handleAll,
    telegram_swallowed sRI1Board 0 zeroedDevice (Memory.Holds.append hholds).1 (by decide) (by decide)]
    at hcount
  exact absurd hcount (by decide)

end SingleScan
