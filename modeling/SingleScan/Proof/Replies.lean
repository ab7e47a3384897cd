import SingleScan.Firmware

/-!
# The frame of a reply

A branch of `pc2dev_packet` fills the reply up to its trailer and closes it with a checksum. Most of them
begin the checksum with what the stack holds, and the reply with the data of a region puts its trailer
one byte late.
-/

namespace SingleScan

open Pc2Dev

variable {φ : Type}

namespace Pc2Dev

variable {b b' : Bytes} {n off : ℕ} {src : List Byte}

/-- Two arrays are the same up to an index. -/
def Agree (n : ℕ) (b b' : Bytes) : Prop := ∀ i < n, b i = b' i

theorem agree_zero (b b' : Bytes) : Agree 0 b b' := fun _ hi => absurd hi (Nat.not_lt_zero _)

theorem Agree.memcpy (h : Agree off b b') (src : List Byte) :
    Agree (off + src.length) (memcpy b off src) (memcpy b' off src) := by
  intro i hi
  unfold SingleScan.memcpy
  by_cases hle : off ≤ i
  · have hlt : i - off < src.length := by omega
    simp [hle, hlt]
  · rw [if_neg hle, if_neg hle, h i (by omega)]

theorem Agree.memcpy_below (h : Agree n b b') (off : ℕ) (src : List Byte) :
    Agree n (SingleScan.memcpy b off src) (SingleScan.memcpy b' off src) := by
  intro i hi
  unfold SingleScan.memcpy
  rw [h i hi]

theorem memcpy_below (b : Bytes) (src : List Byte) {off k : ℕ} (hk : k < off) :
    memcpy b off src k = b k := if_neg (Nat.not_le.2 hk)

theorem memcpy_behind (b : Bytes) {src : List Byte} {off k : ℕ} (hk : off + src.length ≤ k) :
    memcpy b off src k = b k := by
  have hlate : ¬ k - off < src.length := by omega
  simp [memcpy, show off ≤ k by omega, hlate]

theorem xorBytes_succ (b : Bytes) (n : ℕ) (c : Byte) :
    xorBytes b (n + 1) c = xorBytes b n c ^^^ b n := by
  rw [xorBytes, List.range_succ, List.foldl_append]
  rfl

theorem xorBytes_congr (h : Agree n b b') (c : Byte) : xorBytes b n c = xorBytes b' n c := by
  induction n with
  | zero => rfl
  | succ n ih =>
      rw [xorBytes_succ, xorBytes_succ, ih fun i hi => h i (Nat.lt_succ_of_lt hi),
        h n (Nat.lt_succ_self n)]

/-- The value that the checksum begins with stays in it. -/
theorem xorBytes_start (b : Bytes) (n : ℕ) (c : Byte) :
    xorBytes b n c = xorBytes b n 0 ^^^ c := by
  induction n with
  | zero => exact (BitVec.zero_xor).symm
  | succ n ih =>
      rw [xorBytes_succ, xorBytes_succ, ih, BitVec.xor_assoc, BitVec.xor_comm c, BitVec.xor_assoc]

end Pc2Dev

namespace Device

/-- The length field that the callers of `pc2dev_packet` set for a command. -/
def callerDataLen (command : Word) : Word :=
  if command = niosUpRegionData then BitVec.ofNat 32 (1 + targetNumber * 2 + zenithNumber)
  else if command = niosUpRadarPara then BitVec.ofNat 32 sizeofSysPara
  else if command = niosRemoteWriteReponse ∨ command = niosUpRemoteUpdateImage then 4 + 256
  else 4

/-- Another content of `send_buffer`. -/
def withBuffer (d : Device φ) (buffer : Bytes) : Device φ :=
  { d with nios := { d.nios with sendBuffer := buffer } }

/-- `send_buffer` behind `pc2dev_packet`. -/
def packed (d : Device φ) : Bytes := d.pc2devPacket.1.nios.sendBuffer

/-- The reply of `pc2dev_packet` is a frame that the PC can check and skip. -/
structure Framed (d : Device φ) : Prop where
  length : d.pc2devPacket.2 = d.nios2pc.dataLen.toNat + 12
  written : ∀ buffer, ∀ i < d.pc2devPacket.2, (d.withBuffer buffer).packed i = d.packed i
  checksum : d.packed (d.pc2devPacket.2 - 1) = xorBytes d.packed (d.pc2devPacket.2 - 4) 0

/-- A reply that is filled up to byte `n`, and closed with a checksum that begins with `start`. -/
structure Closed (d : Device φ) (n : ℕ) (start : Byte) (body : Bytes → Bytes)
    (t₀ t₁ t₂ : Byte) : Prop where
  filled : ∀ buffer buffer', Agree n (body buffer) (body buffer')
  packet : ∀ buffer, (d.withBuffer buffer).pc2devPacket.2 = n + 4 ∧
    (d.withBuffer buffer).packed =
      memcpy (body buffer) n [t₀, t₁, t₂, xorBytes (body buffer) n start]

variable {d : Device φ} {n : ℕ} {start t₀ t₁ t₂ : Byte} {body : Bytes → Bytes}

/-- Such a reply is a frame exactly if its checksum begins with 0. -/
theorem Closed.framed_iff_len (h : Closed d n start body t₀ t₁ t₂)
    (hlen : n = d.nios2pc.dataLen.toNat + 8) : Framed d ↔ start = 0 := by
  obtain ⟨hlength, hpacked⟩ : d.pc2devPacket.2 = n + 4 ∧ d.packed = memcpy (body d.nios.sendBuffer) n
      [t₀, t₁, t₂, xorBytes (body d.nios.sendBuffer) n start] := h.packet d.nios.sendBuffer
  have hlast : d.packed (n + 3) = xorBytes (body d.nios.sendBuffer) n 0 ^^^ start := by
    rw [hpacked, memcpy, if_pos (by omega), Nat.add_sub_cancel_left, ← xorBytes_start]
    rfl
  have hbody : xorBytes d.packed n 0 = xorBytes (body d.nios.sendBuffer) n 0 := by
    rw [hpacked]
    exact xorBytes_congr (fun i hi => memcpy_below _ _ hi) 0
  constructor
  · intro hframed
    have hsum := hframed.checksum
    rw [hlength, show n + 4 - 1 = n + 3 by omega, Nat.add_sub_cancel, hlast, hbody] at hsum
    exact (BitVec.xor_right_inj _).1 (hsum.trans BitVec.xor_zero.symm)
  · rintro rfl
    refine ⟨by rw [hlength]; omega, fun buffer i hi => ?_, ?_⟩
    · rw [(h.packet buffer).2, hpacked, xorBytes_congr (h.filled buffer d.nios.sendBuffer)]
      exact (h.filled buffer d.nios.sendBuffer).memcpy _ i (by rw [hlength] at hi; exact hi)
    · rw [hlength, show n + 4 - 1 = n + 3 by omega, Nat.add_sub_cancel, hlast, hbody]
      exact BitVec.xor_zero

/-- The header. -/
def header (d : Device φ) (buffer : Bytes) : Bytes :=
  memcpy
    (memcpy buffer 0
      [(d.nios2pc.head >>> 8).setWidth 8, d.nios2pc.head.setWidth 8,
        (d.nios2pc.command >>> 8).setWidth 8, d.nios2pc.command.setWidth 8])
    4 (bytesOf d.nios2pc.dataLen)

theorem agree_header (d : Device φ) (buffer buffer' : Bytes) :
    Agree 8 (d.header buffer) (d.header buffer') := by
  have hstart : Agree 4 (memcpy buffer 0 _) (memcpy buffer' 0 _) :=
    (agree_zero buffer buffer').memcpy
      [(d.nios2pc.head >>> 8).setWidth 8, d.nios2pc.head.setWidth 8,
        (d.nios2pc.command >>> 8).setWidth 8, d.nios2pc.command.setWidth 8]
  exact hstart.memcpy (bytesOf d.nios2pc.dataLen)

theorem header_behind (d : Device φ) (buffer : Bytes) {k : ℕ} (hk : 8 ≤ k) :
    d.header buffer k = buffer k :=
  (memcpy_behind _ hk).trans (memcpy_behind buffer (Nat.le_trans (Nat.le_add_right 4 4) hk))

/-! ### The branches -/

theorem closed_alarmRegion (hcommand : d.nios2pc.command = niosUpAlarmRegion) :
    Closed d (8 + d.nios2pc.dataLen.toNat) 0
      (fun buffer => memcpy
        (memcpy (d.header buffer) 8 ((List.range d.nios2pc.dataLen.toNat).map fun i =>
          eepromReadByte d.eeprom (curAlarmGroup + BitVec.ofNat 32 i)))
        8 [0x00, 0x00, 0x00, d.alarmRegion.changeRegionValue])
      0x00 0x00 0x00 where
  filled := fun buffer buffer' => by
    have hread := (agree_header d buffer buffer').memcpy
      ((List.range d.nios2pc.dataLen.toNat).map fun i =>
        eepromReadByte d.eeprom (curAlarmGroup + BitVec.ofNat 32 i))
    rw [List.length_map, List.length_range] at hread
    exact hread.memcpy_below 8 _
  packet := fun buffer => by
    unfold packed pc2devPacket
    extract_lets garbage dataLen d₁ d₂ d₃ command d₄ d₅ checksum
    rw [show command = niosUpAlarmRegion from hcommand, if_pos rfl]
    exact ⟨rfl, rfl⟩

theorem closed_responsePc (hcommand : d.nios2pc.command = niosUpResponsePc) :
    Closed d 12 (d.stack 0)
      (fun buffer => memcpy (d.header buffer) 8 (bytesOf (d.nios.sysPara.word .pcCommandValue)))
      0 0 0 where
  filled := fun buffer buffer' => (agree_header d buffer buffer').memcpy (bytesOf _)
  packet := fun buffer => by
    unfold packed pc2devPacket
    extract_lets garbage dataLen d₁ d₂ d₃ command
    rw [show command = niosUpResponsePc from hcommand, if_neg (by decide), if_neg (by decide),
      if_pos rfl]
    exact ⟨rfl, rfl⟩

theorem closed_radarPara (hcommand : d.nios2pc.command = niosUpRadarPara) :
    Closed d (8 + sizeofSysPara) (d.stack 0)
      (fun buffer => memcpy (d.header buffer) 8 (d.nios.sysPara.bytes d.padding))
      0xaa 0xbb 0xcc where
  filled := fun buffer buffer' => by
    have hbytes := (agree_header d buffer buffer').memcpy (d.nios.sysPara.bytes d.padding)
    rwa [SysPara.length_bytes] at hbytes
  packet := fun buffer => by
    unfold packed pc2devPacket
    extract_lets garbage dataLen d₁ d₂ d₃ command
    rw [show command = niosUpRadarPara from hcommand, if_neg (by decide), if_neg (by decide),
      if_neg (by decide), if_pos rfl]
    exact ⟨rfl, rfl⟩

theorem closed_default (halarm : d.nios2pc.command ≠ niosUpAlarmRegion)
    (hregion : d.nios2pc.command ≠ niosUpRegionData)
    (hresponse : d.nios2pc.command ≠ niosUpResponsePc)
    (hradar : d.nios2pc.command ≠ niosUpRadarPara)
    (hremote : ¬ (d.nios2pc.command = niosRemoteWriteReponse ∨
      d.nios2pc.command = niosUpRemoteUpdateImage)) :
    Closed d 12 (d.stack 0)
      (fun buffer => memcpy (d.header buffer) 8 (bytesOf d.nios2pc.value)) 0 0 0 where
  filled := fun buffer buffer' => (agree_header d buffer buffer').memcpy (bytesOf _)
  packet := fun buffer => by
    unfold packed pc2devPacket
    extract_lets garbage dataLen d₁ d₂ d₃ command
    rw [if_neg (show ¬ command = _ from halarm), if_neg (show ¬ command = _ from hregion),
      if_neg (show ¬ command = _ from hresponse), if_neg (show ¬ command = _ from hradar),
      if_neg (show ¬ (command = _ ∨ command = _) from hremote)]
    exact ⟨rfl, rfl⟩

/-- A byte of the reply is left as it was. -/
theorem not_framed_of_unwritten {len i : ℕ} (hi : i < len)
    (h : ∀ buffer, (d.withBuffer buffer).pc2devPacket.2 = len ∧
      (d.withBuffer buffer).packed i = buffer i) : ¬ Framed d := by
  intro hframed
  have hlen : d.pc2devPacket.2 = len := (h d.nios.sendBuffer).1
  have hkept := hframed.written (fun _ => d.packed i + 1) i (hlen ▸ hi)
  rw [(h _).2] at hkept
  exact absurd hkept (by bv_omega)

/-- The reply with the data of a region does not write the byte before its trailer. -/
theorem unwritten_regionData (hcommand : d.nios2pc.command = niosUpRegionData) (buffer : Bytes) :
    (d.withBuffer buffer).pc2devPacket.2 = 1738 ∧
      (d.withBuffer buffer).packed 1734 = buffer 1734 := by
  unfold packed pc2devPacket
  extract_lets garbage dataLen d₁ d₂ d₃ command d₄ d₅ checksum₅ offsetAddr d₆ d₇ nios d₈ bufLen checksum
  rw [show command = niosUpRegionData from hcommand, if_neg (by decide), if_pos rfl]
  let bytes := (eepromSequentialRead d.eeprom offsetAddr (targetNumber * 2 + 1 + 102)).getD []
  have hread : bytes.length ≤ 1725 := by
    show ((eepromSequentialRead _ _ _).getD []).length ≤ 1725
    unfold eepromSequentialRead
    split
    · exact Nat.zero_le _
    · rw [Option.getD_some, List.length_map, List.length_range]
      exact le_rfl
  have hsize : targetNumber = 811 := rfl
  refine ⟨rfl, ?_⟩
  calc
    memcpy (swapBytes d₇.nios.sendBuffer) (bufLen + 1) [0x00, 0x00, 0x00, checksum] 1734 =
        swapBytes d₇.nios.sendBuffer 1734 := memcpy_below _ _ (by decide)
    _ = memcpy (memcpy (d.header buffer) 8 [d.alarmRegion.rdWhich]) 9 bytes 1734 :=
        if_neg (by omega)
    _ = memcpy (d.header buffer) 8 [d.alarmRegion.rdWhich] 1734 := memcpy_behind _ (by omega)
    _ = d.header buffer 1734 := memcpy_behind _ (by simp)
    _ = buffer 1734 := d.header_behind buffer (by omega)

/-- The replies of the remote update do not write the byte behind the page. -/
theorem unwritten_remote (hcommand : d.nios2pc.command = niosRemoteWriteReponse ∨
      d.nios2pc.command = niosUpRemoteUpdateImage) (buffer : Bytes) :
    (d.withBuffer buffer).pc2devPacket.2 = 272 ∧
      (d.withBuffer buffer).packed 268 = buffer 268 := by
  unfold packed pc2devPacket
  extract_lets garbage dataLen d₁ d₂ d₃ command
  have hother : command ≠ niosUpAlarmRegion ∧ command ≠ niosUpRegionData ∧
      command ≠ niosUpResponsePc ∧ command ≠ niosUpRadarPara := by
    rcases hcommand with hcommand | hcommand <;>
      rw [show command = _ from hcommand] <;> decide
  rw [if_neg hother.1, if_neg hother.2.1, if_neg hother.2.2.1, if_neg hother.2.2.2,
    if_pos (show command = _ ∨ command = _ from hcommand)]
  refine ⟨rfl, ?_⟩
  let body := memcpy (memcpy (d.header buffer) 8 (bytesOf d.image.addr)) 12 (List.ofFn d.image.data)
  calc
    memcpy body 272 [0, 0, 0, xorBytes body (8 + 4 + 256) garbage] 268 = body 268 :=
        memcpy_below _ _ (by decide)
    _ = memcpy (d.header buffer) 8 (bytesOf d.image.addr) 268 :=
        memcpy_behind _ (by rw [List.length_ofFn])
    _ = d.header buffer 268 := memcpy_behind _ (by simp [bytesOf])
    _ = buffer 268 := d.header_behind buffer (by omega)

/-- The commands of the remote update. -/
def Remote (command : Word) : Prop :=
  command = niosRemoteWriteReponse ∨ command = niosUpRemoteUpdateImage

/-- **The frame of a reply.** With the length that the callers set, it is a frame that the PC can check
and skip exactly if it answers with the selected region, or if it carries neither the data of a region nor
a page of the remote update and the stack happens to hold 0. -/
theorem framed_iff (d : Device φ)
    (hlen : d.nios2pc.dataLen = callerDataLen d.nios2pc.command) :
    Framed d ↔ d.nios2pc.command = niosUpAlarmRegion ∨
      d.nios2pc.command ≠ niosUpRegionData ∧ ¬ Remote d.nios2pc.command ∧ d.stack 0 = 0 := by
  unfold callerDataLen at hlen
  by_cases halarm : d.nios2pc.command = niosUpAlarmRegion
  · have hclosed := closed_alarmRegion halarm
    rw [hclosed.framed_iff_len (Nat.add_comm _ _)]
    simp [halarm]
  by_cases hregion : d.nios2pc.command = niosUpRegionData
  · have hnot := not_framed_of_unwritten (by decide) (unwritten_regionData hregion)
    exact iff_of_false hnot fun h => h.elim halarm fun h => h.1 hregion
  by_cases hremote : Remote d.nios2pc.command
  · have hnot := not_framed_of_unwritten (by decide) (unwritten_remote hremote)
    exact iff_of_false hnot fun h => h.elim halarm fun h => h.2.1 hremote
  rw [if_neg hregion] at hlen
  by_cases hradar : d.nios2pc.command = niosUpRadarPara
  · rw [if_pos hradar] at hlen
    rw [(closed_radarPara hradar).framed_iff_len (by rw [hlen]; rfl)]
    simp [halarm, hregion, hremote]
  rw [if_neg hradar, if_neg (show ¬ (_ ∨ _) from hremote)] at hlen
  have hfour : 12 = d.nios2pc.dataLen.toNat + 8 := by rw [hlen]; rfl
  by_cases hresponse : d.nios2pc.command = niosUpResponsePc
  · rw [(closed_responsePc hresponse).framed_iff_len hfour]
    simp [halarm, hregion, hremote]
  · rw [(closed_default halarm hregion hresponse hradar hremote).framed_iff_len hfour]
    simp [halarm, hregion, hremote]

/-- A device that is about to reply, with zeros on its stack. -/
def replying (command : Word) : Device Unit :=
  { Device.initial (fun _ => 0) () (fun _ => 0) with
    nios2pc := { head := 0x1234, command := command, dataLen := callerDataLen command, value := 0 } }

theorem framed_radarPara : Framed (replying niosUpRadarPara) :=
  (framed_iff (replying niosUpRadarPara) rfl).2
    (.inr ⟨by decide, by unfold Remote; decide, rfl⟩)

/-- No reply with the data of a region is a frame. -/
theorem not_framed_regionData :
    ¬ ∀ d : Device Unit, d.nios2pc.dataLen = callerDataLen d.nios2pc.command → Framed d :=
  fun hall => not_framed_of_unwritten (d := replying niosUpRegionData) (by decide)
    (unwritten_regionData rfl) (hall (replying niosUpRegionData) rfl)

end Device

end SingleScan
