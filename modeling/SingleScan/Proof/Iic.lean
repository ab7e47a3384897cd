import SingleScan.Iic
import SingleScan.Lib.Run
import SingleScan.Proof.Eeprom

/-!
# What the edges do to the EEPROM

Each function of the driver is described once by what it does to a bus in a known state, and the accesses
are put together from that: on a free bus an access at the pins does to the memory what the access does to
it byte by byte, and leaves the bus free.
-/

namespace SingleScan

open I2c

namespace Iic

section Driver

variable {σ : Type*} {l : Wiring σ} {d d' : σ} {drives level scl : Bool} {b : Bus σ} {byte : Byte}

/-! ### A byte out -/

theorem start_free : start l ⟨d, .away, true, true, true⟩ = ⟨l.start d, .takes [], true, false, true⟩ :=
  Bus.data_start rfl

theorem start_takes :
    start l ⟨d, .takes [], drives, level, false⟩ = ⟨l.start d, .takes [], true, false, true⟩ :=
  Bus.data_start rfl

theorem stop_takes :
    stop l ⟨d, .takes [], drives, level, false⟩ = ⟨l.stop d, .away, true, true, true⟩ :=
  Bus.data_stop (.inl rfl)

theorem stop_away : stop l ⟨d, .away, drives, level, false⟩ = ⟨l.stop d, .away, true, true, true⟩ :=
  Bus.data_stop (.inl rfl)

/-- After `k + 1` rounds the device has as many bits. -/
theorem writeBit_iterate {k : ℕ} (hk : k < 8) :
    (writeBit l)^[k + 1] (⟨d, .takes [], true, level, scl⟩, byte) =
      (⟨d, .takes ((Bits.ofWord byte).take (k + 1)), true, byte.getMsbD k, true⟩, byte <<< (k + 1)) := by
  induction k with
  | zero =>
      have hsent : Bus.clock l true (Bus.data l (byte.getMsbD 0)
          (Bus.clock l false ⟨d, .takes [], true, level, scl⟩)) =
            ⟨d, .takes [byte.getMsbD 0], true, byte.getMsbD 0, true⟩ := Bus.bit_sent (by decide)
      rw [Bits.take_ofWord_succ byte hk]
      exact Prod.ext hsent rfl
  | succ k ih =>
      have hlen : ((Bits.ofWord byte).take (k + 1)).length ≠ 8 := by
        rw [List.length_take, Bits.length_ofWord]
        omega
      have hbit : (byte <<< (k + 1)).getMsbD 0 = byte.getMsbD (k + 1) := by
        rw [BitVec.getMsbD_shiftLeft, Nat.zero_add]
      rw [Function.iterate_succ_apply', ih (Nat.lt_of_succ_lt hk), writeBit, hbit, Bus.bit_sent hlen,
        ← Bits.take_ofWord_succ byte hk, ← BitVec.shiftLeft_add]

theorem iicWrite_takes (hscl : scl = true → drives = true) :
    iicWrite l byte ⟨d, .takes [], drives, level, scl⟩ =
      ⟨d, .takes (Bits.ofWord byte), true, byte.getMsbD 7, true⟩ := by
  have hout : Bus.direction l true ⟨d, .takes [], drives, level, scl⟩ =
      ⟨d, .takes [], true, level, scl⟩ := by
    cases scl with
    | false => rfl
    | true =>
        rw [hscl rfl]
        cases level <;> rfl
  rw [iicWrite, hout, writeBit_iterate (by decide), Bits.take_ofWord_self]

theorem waitSlaveAck_taken (hreceive : l.receive d byte = some d') :
    waitSlaveAck l ⟨d, .takes (Bits.ofWord byte), drives, level, true⟩ =
      ⟨d', l.turn d', false, level, false⟩ := by
  rw [waitSlaveAck, Bus.clock_taken hreceive]
  rfl

/-- The device has a byte. -/
theorem send_taken (hscl : scl = true → drives = true) (hreceive : l.receive d byte = some d') :
    send l ⟨d, .takes [], drives, level, scl⟩ byte = ⟨d', l.turn d', false, byte.getMsbD 7, false⟩ := by
  rw [send, iicWrite_takes hscl, waitSlaveAck_taken hreceive]

/-! ### A byte in -/

/-- SCL rises over a bit. -/
theorem readBit_first {bit : Bool} {bits : List Bool} {dat : Byte} :
    readBit l (⟨d, .gives (bit :: bits), false, level, false⟩, dat) =
      (⟨d, .gives (bit :: bits), false, level, true⟩, Bits.shiftIn dat bit) := by
  show (_, Bits.shiftIn dat (Bus.sda l ⟨d, .gives (bit :: bits), false, level, true⟩)) = _
  rw [Bus.sda_gives]
  rfl

/-- SCL falls, and rises over the next bit. -/
theorem readBit_next {bit next : Bool} {bits : List Bool} {dat : Byte} :
    readBit l (⟨d, .gives (bit :: next :: bits), false, level, true⟩, dat) =
      (⟨d, .gives (next :: bits), false, level, true⟩, Bits.shiftIn dat next) :=
  readBit_first

/-- After `k + 1` rounds bit `k` is on the wire. -/
theorem readBit_iterate {k : ℕ} (hk : k < 8) :
    (readBit l)^[k + 1] (⟨d, .gives (Bits.ofWord byte), false, level, false⟩, 0) =
      (⟨d, .gives ((Bits.ofWord byte).drop k), false, level, true⟩,
        Bits.toWord 8 ((Bits.ofWord byte).take (k + 1))) := by
  induction k with
  | zero =>
      have hbits := Bits.drop_ofWord byte hk
      rw [List.drop_zero] at hbits
      rw [Bits.take_ofWord_succ byte hk, List.drop_zero, hbits]
      exact readBit_first
  | succ k ih =>
      have hk' : k < 8 := Nat.lt_of_succ_lt hk
      rw [Function.iterate_succ_apply', ih hk', Bits.drop_ofWord byte hk', Bits.drop_ofWord byte hk,
        readBit_next, Bits.take_ofWord_succ byte hk, Bits.toWord_append]

theorem iicRead_gives :
    iicRead l ⟨d, .gives (Bits.ofWord byte), drives, level, false⟩ =
      (⟨d, .gives [byte.getMsbD 7], false, level, true⟩, byte) := by
  have hbits := Bits.drop_ofWord byte (k := 7) (by decide)
  rw [Bits.drop_ofWord_self] at hbits
  have hread : (readBit l)^[8] (⟨d, .gives (Bits.ofWord byte), false, level, false⟩, 0) =
      (⟨d, .gives ((Bits.ofWord byte).drop 7), false, level, true⟩,
        Bits.toWord 8 ((Bits.ofWord byte).take 8)) := readBit_iterate (by decide)
  rw [hbits, Bits.take_ofWord_self, Bits.toWord_ofWord] at hread
  exact hread

theorem masterSendAck_gives {bit : Bool} :
    masterSendAck l ⟨d, .gives [bit], drives, level, true⟩ =
      ⟨l.acked d, l.turn (l.acked d), true, false, false⟩ := rfl

theorem noAck_gives {bit : Bool} :
    noAck l ⟨d, .gives [bit], drives, level, true⟩ = ⟨d, .away, true, true, false⟩ := rfl

/-- A byte that was asked for and is not wanted: the clock of `no_ack` passes its first bit. -/
theorem noAck_more {bit next : Bool} {bits : List Bool} :
    noAck l ⟨d, .gives (bit :: next :: bits), drives, level, false⟩ =
      ⟨d, .gives (next :: bits), true, true, false⟩ := rfl

/-- The STOP behind it. -/
theorem stop_gives {bit : Bool} {bits : List Bool} (hfree : bit = true ∨ l.strong = true) :
    stop l ⟨d, .gives (bit :: bits), drives, level, false⟩ = ⟨l.stop d, .away, true, true, true⟩ := by
  refine Bus.data_stop (hfree.imp_left ?_)
  rintro rfl
  rfl

theorem stop_held {bits : List Bool} (hweak : l.strong = false) :
    stop l ⟨d, .gives (false :: bits), drives, level, false⟩ =
      ⟨d, .gives (false :: bits), true, true, true⟩ :=
  Bus.data_held rfl hweak

end Driver

/-! ### The AT24C1024 -/

section Device

variable {strong : Bool} {rom latch : Eeprom} {pointer : BitVec 17} {addr i2cAddr : Word} {byte : Byte}
  {b : Bus At24c1024}

theorem command_eq (addr : Word) : command addr = if addr.getLsbD 16 then 0xa2 else 0xa0 := by
  have hbit : (addr >>> 15).setWidth 8 &&& 0x02#8 = if addr.getLsbD 16 then 0x02#8 else 0 := by
    have hhigh : ((addr >>> 15).setWidth 8).getLsbD 1 = addr.getLsbD 16 := by
      rw [BitVec.getLsbD_setWidth, BitVec.getLsbD_ushiftRight]
      rfl
    have hand := BitVec.and_twoPow ((addr >>> 15).setWidth 8) 1
    rwa [hhigh] at hand
  rw [command, hbit]
  cases addr.getLsbD 16 <;> rfl

theorem extractLsb'_sixteen (addr : Word) : addr.extractLsb' 16 1 = BitVec.ofBool (addr.getLsbD 16) := by
  ext i hi
  obtain rfl : i = 0 := Nat.lt_one_iff.mp hi
  simp

theorem receive_command :
    At24c1024.receive ⟨rom, latch, pointer, .command⟩ (command addr) =
      some ⟨rom, latch, addr.extractLsb' 16 1 ++ pointer.setWidth 16, .addrHigh⟩ := by
  rw [command_eq, extractLsb'_sixteen]
  cases addr.getLsbD 16 <;> rfl

theorem receive_command_read :
    At24c1024.receive ⟨rom, latch, pointer, .command⟩ (command addr ||| 0x01#8) =
      some ⟨rom, latch, pointer, .reading⟩ := by
  rw [command_eq]
  cases addr.getLsbD 16 <;> rfl

/-- What the three bytes make of the pointer. -/
def pointed (addr i2cAddr : Word) : BitVec 17 :=
  addr.extractLsb' 16 1 ++ i2cAddr.extractLsb' 8 8 ++ i2cAddr.setWidth 8

theorem turn_reading {d : At24c1024} (h : d.expects = .reading) :
    (At24c1024.wired strong).turn d = .gives (Bits.ofWord (d.rom d.pointer)) := by
  have hsend : At24c1024.target.send d = some (d.rom d.pointer) := if_pos h
  simp only [At24c1024.wired, Target.turn, hsend]

theorem turn_of_ne {d : At24c1024} (h : d.expects ≠ .reading) :
    (At24c1024.wired strong).turn d = .takes [] := by
  have hsend : At24c1024.target.send d = none := if_neg h
  simp only [At24c1024.wired, Target.turn, hsend]

/-- A byte that does not turn the direction. -/
theorem send_written {d d' : At24c1024} {drives level scl : Bool} (hscl : scl = true → drives = true)
    (hreceive : d.receive byte = some d') (hwrites : d'.expects ≠ .reading) :
    send (At24c1024.wired strong) ⟨d, .takes [], drives, level, scl⟩ byte =
      ⟨d', .takes [], false, byte.getMsbD 7, false⟩ := by
  rw [send_taken hscl hreceive, turn_of_ne hwrites]

/-- Behind the three bytes the device waits for data. -/
theorem setAddress_free {expects : Expects} :
    setAddress (At24c1024.wired strong) addr i2cAddr
        ⟨⟨rom, latch, pointer, expects⟩, .away, true, true, true⟩ =
      ⟨⟨rom, rom, pointed addr i2cAddr, .data⟩, .takes [], false, (i2cAddr.setWidth 8).getMsbD 7,
        false⟩ := by
  have hsecond : At24c1024.receive
      ⟨rom, rom, addr.extractLsb' 16 1 ++ pointer.setWidth 16, .addrHigh⟩ (i2cAddr.extractLsb' 8 8) =
        some ⟨rom, rom, addr.extractLsb' 16 1 ++ i2cAddr.extractLsb' 8 8 ++
          (addr.extractLsb' 16 1 ++ pointer.setWidth 16 : BitVec 17).setWidth 8, .addrLow⟩ := by
    rw [At24c1024.receive, Bits.extractLsb'_high]
  have hthird : At24c1024.receive ⟨rom, rom, addr.extractLsb' 16 1 ++ i2cAddr.extractLsb' 8 8 ++
          (addr.extractLsb' 16 1 ++ pointer.setWidth 16 : BitVec 17).setWidth 8, .addrLow⟩
        (i2cAddr.setWidth 8) = some ⟨rom, rom, pointed addr i2cAddr, .data⟩ := by
    rw [At24c1024.receive, Bits.extractLsb'_high (addr.extractLsb' 16 1 ++ i2cAddr.extractLsb' 8 8)]
    rfl
  have hstart : start (At24c1024.wired strong) ⟨⟨rom, latch, pointer, expects⟩, .away, true, true, true⟩ =
      ⟨⟨rom, rom, pointer, .command⟩, .takes [], true, false, true⟩ := start_free
  simp only [setAddress]
  rw [hstart, send_written (fun _ => rfl) receive_command Expects.noConfusion,
    send_written Bool.noConfusion hsecond Expects.noConfusion,
    send_written Bool.noConfusion hthird Expects.noConfusion]

theorem pointed_page (addr : Word) (i : ℕ) :
    pointed addr (addr + BitVec.ofNat 32 (i * eepromPageSize)) = pageAddress addr i 0 := by
  unfold pointed pageAddress
  exact congrArg _ (BitVec.add_zero _).symm

theorem pointed_self (addr : Word) : pointed addr addr = addr.setWidth 17 := by
  have hpage := pointed_page addr 0
  have hplain := pageAddress_eq addr (k := 0) (by omega) (by omega)
  rw [Nat.zero_mul, BitVec.add_zero] at hpage
  rw [BitVec.add_zero] at hplain
  exact hpage.trans hplain

/-- The pointer moves on within its page. -/
theorem pageAddress_succ (addr : Word) (i j : ℕ) :
    (pageAddress addr i j).extractLsb' 8 9 ++ ((pageAddress addr i j).setWidth 8 + 1) =
      pageAddress addr i (j + 1) := by
  unfold pageAddress
  dsimp only
  rw [Bits.extractLsb'_high, Bits.setWidth_low, BitVec.add_assoc]
  congr 2
  exact (BitVec.ofNat_add j 1).symm

/-! ### The accesses -/

/-- The bus is free, and the device holds `rom`. -/
def Holds (b : Bus At24c1024) (rom : Eeprom) : Prop := b.Free ∧ b.dev.rom = rom

theorem Holds.eq (h : Holds b rom) :
    ∃ latch pointer expects, b = ⟨⟨rom, latch, pointer, expects⟩, .away, true, true, true⟩ := by
  obtain ⟨hfree, rfl⟩ := h
  exact ⟨b.dev.latch, b.dev.pointer, b.dev.expects, hfree.eq⟩

theorem holds_mk {expects : Expects} :
    Holds ⟨⟨rom, latch, pointer, expects⟩, .away, true, true, true⟩ rom :=
  ⟨⟨rfl, rfl, rfl, rfl⟩, rfl⟩

/-- `eeprom_write_byte` at the pins. -/
theorem Holds.writeByte (h : Holds b rom) (addr : Word) (dat : Byte) :
    Holds (writeByte (At24c1024.wired strong) addr dat b) (eepromWriteByte rom addr dat) := by
  obtain ⟨latch, pointer, expects, rfl⟩ := h.eq
  have hdata : At24c1024.receive ⟨rom, rom, addr.setWidth 17, .data⟩ dat = some ⟨rom,
      eepromWriteByte rom addr dat, (addr.setWidth 17).extractLsb' 8 9 ++
        ((addr.setWidth 17).setWidth 8 + 1), .data⟩ := rfl
  rw [Iic.writeByte, setAddress_free, pointed_self,
    send_written Bool.noConfusion hdata Expects.noConfusion, stop_takes]
  exact holds_mk

/-- What page `i` of a block puts into the memory. -/
def pageBytes (addr : Word) (dat : ℕ → Byte) (i count : ℕ) (rom : Eeprom) : Eeprom :=
  (List.range count).foldl
    (fun rom j => rom.store (pageAddress addr i j) (dat (i * eepromPageSize + j))) rom

/-- The bytes of a page come in one after the other. -/
theorem send_pageBytes (addr : Word) (dat : ℕ → Byte) (i count : ℕ) {level : Bool} :
    ∃ level', (List.range count).foldl
        (fun b j => send (At24c1024.wired strong) b (dat (i * eepromPageSize + j)))
        ⟨⟨rom, latch, pageAddress addr i 0, .data⟩, .takes [], false, level, false⟩ =
      ⟨⟨rom, pageBytes addr dat i count latch, pageAddress addr i count, .data⟩, .takes [], false,
        level', false⟩ := by
  induction count with
  | zero => exact ⟨level, rfl⟩
  | succ count ih =>
      obtain ⟨before, hbefore⟩ := ih
      have hdata : At24c1024.receive
          ⟨rom, pageBytes addr dat i count latch, pageAddress addr i count, .data⟩
            (dat (i * eepromPageSize + count)) =
          some ⟨rom, pageBytes addr dat i (count + 1) latch, pageAddress addr i (count + 1), .data⟩ := by
        rw [At24c1024.receive, pageAddress_succ, pageBytes, pageBytes, List.range_succ, List.foldl_append]
        rfl
      refine ⟨(dat (i * eepromPageSize + count)).getMsbD 7, ?_⟩
      rw [List.range_succ, List.foldl_append, hbefore, List.foldl_cons, List.foldl_nil,
        send_written Bool.noConfusion hdata Expects.noConfusion]

theorem Holds.writePiece (h : Holds b rom) (addr : Word) (dat : ℕ → Byte) (i count : ℕ) :
    Holds (writePiece (At24c1024.wired strong) addr dat i count b) (pageBytes addr dat i count rom) := by
  obtain ⟨latch, pointer, expects, rfl⟩ := h.eq
  simp only [Iic.writePiece, setAddress_free, pointed_page]
  obtain ⟨level, hbytes⟩ := send_pageBytes addr dat i count
  rw [hbytes, stop_takes]
  exact holds_mk

/-- A run over `m` blocks of `n` and a rest, block by block. -/
theorem foldl_blocks {β : Type*} (f : β → ℕ → β) (n m r : ℕ) (x : β) :
    (List.range (m * n + r)).foldl f x =
      (List.range r).foldl (fun x j => f x (m * n + j))
        ((List.range m).foldl (fun x i => (List.range n).foldl (fun x j => f x (i * n + j)) x) x) := by
  rw [List.range_add, List.foldl_append, List.foldl_map]
  congr 1
  induction m with
  | zero =>
      rw [Nat.zero_mul]
      rfl
  | succ m ih =>
      rw [Nat.succ_mul, List.range_add, List.foldl_append, List.foldl_map, ih, List.range_succ,
        List.foldl_append]
      rfl

/-- The bytes of `eeprom_write_page`, without its pages. -/
theorem eepromWritePage_map (rom : Eeprom) (addr : Word) (dat : ℕ → Byte) (len : ℕ) :
    eepromWritePage rom addr ((List.range len).map dat) =
      (List.range len).foldl (fun rom k =>
        rom.store (pageAddress addr (k / eepromPageSize) (k % eepromPageSize)) (dat k)) rom := by
  induction len with
  | zero => rfl
  | succ len ih =>
      rw [List.range_succ, List.map_append, List.foldl_append, ← ih]
      unfold eepromWritePage
      rw [List.zipIdx_append, List.foldl_append, List.length_map, List.length_range, Nat.zero_add]
      rfl

/-- A page is part of the whole. -/
theorem pageBytes_eq (addr : Word) (dat : ℕ → Byte) (i : ℕ) {count : ℕ} (hcount : count ≤ eepromPageSize)
    (rom : Eeprom) :
    pageBytes addr dat i count rom =
      (List.range count).foldl (fun rom j => rom.store (pageAddress addr
        ((i * eepromPageSize + j) / eepromPageSize) ((i * eepromPageSize + j) % eepromPageSize))
          (dat (i * eepromPageSize + j))) rom := by
  refine List.foldl_ext _ _ _ ?_
  intro rom j hj
  have hlt : j < eepromPageSize := (List.mem_range.mp hj).trans_le hcount
  rw [Nat.add_comm (i * eepromPageSize) j, Nat.add_mul_div_right j i (Nat.zero_lt_of_lt hlt),
    Nat.add_mul_mod_self_right, Nat.div_eq_of_lt hlt, Nat.mod_eq_of_lt hlt, Nat.zero_add]

theorem Holds.writePieces (h : Holds b rom) (addr : Word) (dat : ℕ → Byte) (number count : ℕ) :
    Holds
      ((List.range number).foldl
        (fun b i => Iic.writePiece (At24c1024.wired strong) addr dat i count b) b)
      ((List.range number).foldl (fun rom i => pageBytes addr dat i count rom) rom) := by
  induction number with
  | zero => exact h
  | succ number ih =>
      simp only [List.range_succ, List.foldl_append, List.foldl_cons, List.foldl_nil]
      exact ih.writePiece addr dat number count

/-- The whole pages and the rest. -/
theorem Holds.writeBlocks (h : Holds b rom) (addr : Word) (dat : ℕ → Byte) (number remain count : ℕ) :
    Holds
      (let b := (List.range number).foldl
        (fun b i => Iic.writePiece (At24c1024.wired strong) addr dat i count b) b
      if remain ≠ 0 then Iic.writePiece (At24c1024.wired strong) addr dat number remain b else b)
      (pageBytes addr dat number remain
        ((List.range number).foldl (fun rom i => pageBytes addr dat i count rom) rom)) := by
  have hpages : Holds
      ((List.range number).foldl
        (fun b i => Iic.writePiece (At24c1024.wired strong) addr dat i count b) b)
      ((List.range number).foldl (fun rom i => pageBytes addr dat i count rom) rom) :=
    h.writePieces addr dat number count
  dsimp only
  split_ifs with hremain
  · exact hpages.writePiece addr dat number remain
  · rw [not_not.mp hremain]
    exact hpages

/-- `eeprom_write_page` at the pins. -/
theorem Holds.writePage (h : Holds b rom) (addr : Word) (dat : ℕ → Byte) (len : BitVec 16) :
    Holds (writePage (At24c1024.wired strong) addr dat len b)
      (eepromWritePage rom addr ((List.range len.toNat).map dat)) := by
  have hpos : 0 < eepromPageSize := by decide
  have hrest : len.toNat % eepromPageSize ≤ eepromPageSize := (Nat.mod_lt _ hpos).le
  have hbytes : eepromWritePage rom addr ((List.range len.toNat).map dat) =
      pageBytes addr dat (len.toNat / eepromPageSize) (len.toNat % eepromPageSize)
        ((List.range (len.toNat / eepromPageSize)).foldl
          (fun rom i => pageBytes addr dat i eepromPageSize rom) rom) := by
    conv_lhs => rw [eepromWritePage_map, ← Nat.div_add_mod' len.toNat eepromPageSize, foldl_blocks]
    rw [pageBytes_eq addr dat _ hrest]
    simp only [pageBytes_eq addr dat _ le_rfl]
  rw [hbytes]
  exact h.writeBlocks addr dat _ _ _

/-- The device gives the byte at the address. -/
theorem seek_free {expects : Expects} :
    ∃ drives level, seek (At24c1024.wired strong) addr
        ⟨⟨rom, latch, pointer, expects⟩, .away, true, true, true⟩ =
      ⟨⟨rom, rom, addr.setWidth 17, .reading⟩, .gives (Bits.ofWord (rom (addr.setWidth 17))), drives,
        level, false⟩ := by
  have hstart : start (At24c1024.wired strong) ⟨⟨rom, rom, addr.setWidth 17, .data⟩, .takes [], false,
      (addr.setWidth 8).getMsbD 7, false⟩ =
        ⟨⟨rom, rom, addr.setWidth 17, .command⟩, .takes [], true, false, true⟩ := start_takes
  refine ⟨false, (command addr ||| 0x01#8).getMsbD 7, ?_⟩
  rw [seek, setAddress_free, pointed_self, hstart, send_taken (fun _ => rfl) receive_command_read,
    turn_reading rfl]

/-- `eeprom_read_byte` at the pins. -/
theorem Holds.readByte (h : Holds b rom) (addr : Word) :
    (readByte (At24c1024.wired strong) addr b).2 = eepromReadByte rom addr ∧
      Holds (readByte (At24c1024.wired strong) addr b).1 rom := by
  unfold Iic.readByte eepromReadByte
  split_ifs with hbig
  · exact ⟨rfl, h⟩
  · obtain ⟨latch, pointer, expects, rfl⟩ := h.eq
    obtain ⟨drives, level, hseek⟩ := seek_free
    rw [hseek, iicRead_gives]
    dsimp only
    rw [noAck_gives, stop_away]
    exact ⟨rfl, holds_mk⟩

/-- After `k` rounds the next byte is on its way. -/
theorem readNext_iterate (k : ℕ) {drives level : Bool} :
    ∃ drives' level', (readNext (At24c1024.wired strong))^[k] (⟨⟨rom, latch, pointer, .reading⟩,
        .gives (Bits.ofWord (rom pointer)), drives, level, false⟩, []) =
      (⟨⟨rom, latch, pointer + BitVec.ofNat 17 k, .reading⟩,
          .gives (Bits.ofWord (rom (pointer + BitVec.ofNat 17 k))), drives', level', false⟩,
        (List.range k).map fun i => rom (pointer + BitVec.ofNat 17 i)) := by
  induction k with
  | zero =>
      refine ⟨drives, level, ?_⟩
      rw [BitVec.add_zero]
      rfl
  | succ k ih =>
      obtain ⟨drives', level', hround⟩ := ih
      have hnext : pointer + BitVec.ofNat 17 k + 1 = pointer + BitVec.ofNat 17 (k + 1) := by
        rw [BitVec.add_assoc]
        congr 1
        exact (BitVec.ofNat_add k 1).symm
      refine ⟨true, false, ?_⟩
      rw [Function.iterate_succ_apply', hround, readNext, iicRead_gives]
      dsimp only
      rw [masterSendAck_gives, turn_reading rfl, List.range_succ, List.map_append, ← hnext]
      rfl

/-- What a STOP behind a block meets: the second bit of the byte that follows the block. -/
def Released (strong : Bool) (rom : Eeprom) (addr : Word) (len : ℕ) : Prop :=
  (rom (addr.setWidth 17 + BitVec.ofNat 17 len)).getMsbD 1 = true ∨ strong = true

instance (strong : Bool) (rom : Eeprom) (addr : Word) (len : ℕ) :
    Decidable (Released strong rom addr len) :=
  inferInstanceAs (Decidable (_ ∨ _))

/-- The bytes are read, and the byte behind them is given up at its second bit. -/
theorem readBlock_free (h : Holds b rom) (addr : Word) (len : ℕ) :
    ∃ d : At24c1024, ∃ bits drives level, d.rom = rom ∧ d.latch = rom ∧
      readBlock (At24c1024.wired strong) addr len b =
        (stop (At24c1024.wired strong)
            ⟨d, .gives ((rom (addr.setWidth 17 + BitVec.ofNat 17 len)).getMsbD 1 :: bits), drives, level,
              false⟩,
          (List.range len).map fun i => rom (addr.setWidth 17 + BitVec.ofNat 17 i)) := by
  obtain ⟨latch, pointer, expects, rfl⟩ := h.eq
  obtain ⟨drives, level, hseek⟩ := seek_free
  obtain ⟨drives', level', hrounds⟩ := @readNext_iterate _ rom _ (addr.setWidth 17) len _ _
  obtain ⟨byte, hbyte⟩ : ∃ byte, byte = rom (addr.setWidth 17 + BitVec.ofNat 17 len) := ⟨_, rfl⟩
  have hbits : Bits.ofWord byte = byte.getMsbD 0 :: byte.getMsbD 1 :: (Bits.ofWord byte).drop 2 := by
    rw [← Bits.drop_ofWord byte (k := 1) (by decide), ← Bits.drop_ofWord byte (k := 0) (by decide),
      List.drop_zero]
  rw [← hbyte, hbits] at hrounds
  refine ⟨⟨rom, rom, addr.setWidth 17 + BitVec.ofNat 17 len, .reading⟩,
    (Bits.ofWord byte).drop 2, true, true, rfl, rfl, ?_⟩
  rw [readBlock, hseek, hrounds, ← hbyte]
  exact congrArg (fun b => (stop (At24c1024.wired strong) b, _)) noAck_more

theorem Holds.readBlock (h : Holds b rom) (addr : Word) {len : ℕ} (hfree : Released strong rom addr len) :
    Holds (readBlock (At24c1024.wired strong) addr len b).1 rom := by
  obtain ⟨d, bits, drives, level, hrom, hlatch, hread⟩ := readBlock_free h addr len
  rw [hread]
  dsimp only
  rw [stop_gives (l := At24c1024.wired strong) hfree]
  exact ⟨⟨rfl, rfl, rfl, rfl⟩, hlatch⟩

/-- `eeprom_sequential_read` at the pins. -/
theorem Holds.sequentialRead (h : Holds b rom) (addr : Word) (len : BitVec 16)
    (hfree : addr.toNat ≤ at24c1024MaxAddr → Released strong rom addr len.toNat) :
    (sequentialRead (At24c1024.wired strong) addr len b).2 = eepromSequentialRead rom addr len.toNat ∧
      Holds (sequentialRead (At24c1024.wired strong) addr len b).1 rom := by
  unfold Iic.sequentialRead eepromSequentialRead
  split_ifs with hbig
  · exact ⟨rfl, h⟩
  · obtain ⟨d, bits, drives, level, hrom, hlatch, hread⟩ := readBlock_free h addr len.toNat
    have hblock := h.readBlock addr (hfree (Nat.not_lt.mp hbig))
    refine ⟨?_, (hblock.readByte addr).2⟩
    rw [hread]

end Device

/-! ### Runs of accesses -/

/-- The accesses that `iic.h` offers. -/
inductive Access
  | writeByte (addr : Word) (dat : Byte)
  | writePage (addr : Word) (dat : ℕ → Byte) (len : BitVec 16)
  | readByte (addr : Word)
  | sequentialRead (addr : Word) (len : BitVec 16)

namespace Access

/-- An access at the pins. -/
def pins {σ : Type*} (l : Wiring σ) (b : Bus σ) : Access → Bus σ
  | .writeByte addr dat => Iic.writeByte l addr dat b
  | .writePage addr dat len => Iic.writePage l addr dat len b
  | .readByte addr => (Iic.readByte l addr b).1
  | .sequentialRead addr len => (Iic.sequentialRead l addr len b).1

/-- What the access reads at the pins. -/
def reads {σ : Type*} (l : Wiring σ) (b : Bus σ) : Access → Option (List Byte)
  | .writeByte _ _ | .writePage _ _ _ => none
  | .readByte addr => some [(Iic.readByte l addr b).2]
  | .sequentialRead addr len => (Iic.sequentialRead l addr len b).2

/-- The access byte by byte: what it reads, and the memory after it. -/
def bytes (rom : Eeprom) : Access → Option (Option (List Byte) × Eeprom)
  | .writeByte addr dat => some (none, eepromWriteByte rom addr dat)
  | .writePage addr dat len =>
      some (none, eepromWritePage rom addr ((List.range len.toNat).map dat))
  | .readByte addr => some (some [eepromReadByte rom addr], rom)
  | .sequentialRead addr len => some (eepromSequentialRead rom addr len.toNat, rom)

/-- A block is read before a byte that lets the STOP through. -/
def Stops (strong : Bool) (b : Bus At24c1024) : Access → Prop
  | .sequentialRead addr len =>
      addr.toNat ≤ at24c1024MaxAddr → Released strong b.dev.rom addr len.toNat
  | .writeByte _ _ | .writePage _ _ _ | .readByte _ => True

/-- One access. -/
theorem simulates {strong : Bool} {b : Bus At24c1024} {rom : Eeprom} (h : Holds b rom) (access : Access)
    (hstops : access.Stops strong b) :
    ∃ rom', access.bytes rom = some (access.reads (At24c1024.wired strong) b, rom') ∧
      Holds (access.pins (At24c1024.wired strong) b) rom' := by
  cases access with
  | writeByte addr dat => exact ⟨_, rfl, h.writeByte addr dat⟩
  | writePage addr dat len => exact ⟨_, rfl, h.writePage addr dat len⟩
  | readByte addr =>
      obtain ⟨hread, hbus⟩ := h.readByte addr
      refine ⟨rom, ?_, hbus⟩
      rw [bytes, reads, hread]
  | sequentialRead addr len =>
      rw [Stops, h.2] at hstops
      obtain ⟨hread, hbus⟩ := h.sequentialRead addr len hstops
      refine ⟨rom, ?_, hbus⟩
      rw [bytes, reads, hread]

/-- **The pins do what the accesses mean.** -/
theorem pins_refine {strong : Bool} {b : Bus At24c1024} {rom : Eeprom} {accesses : List Access}
    (h : Holds b rom)
    (hstops : Machine.Along (pins (At24c1024.wired strong)) (fun b access => access.Stops strong b) b
      accesses) :
    ∃ rom', Machine.runSpec bytes rom accesses =
        some (Machine.outputs (pins (At24c1024.wired strong)) (reads (At24c1024.wired strong)) b accesses,
          rom') ∧
      Holds (accesses.foldl (pins (At24c1024.wired strong)) b) rom' := by
  have hrun := hstops.simulate (f := id) (R := Holds)
    (fun _ access _ hrel hstop => simulates hrel access hstop) h
  rwa [List.map_id] at hrun

/-- A device as it comes from the factory. -/
def blank : Bus At24c1024 := ⟨⟨fun _ => 0xff, fun _ => 0xff, 0, .nothing⟩, .away, true, true, true⟩

/-- A block is read from a blank device on a weak bus, and a byte is written and read. -/
theorem pins_refine_blank :
    ∃ rom', Machine.runSpec bytes (fun _ => 0xff)
        [.sequentialRead 0x1fff 40, .writeByte 0x1fff 0x5a, .readByte 0x1fff] =
        some (Machine.outputs (pins (At24c1024.wired false)) (reads (At24c1024.wired false)) blank
          [.sequentialRead 0x1fff 40, .writeByte 0x1fff 0x5a, .readByte 0x1fff], rom') ∧
      Holds ([.sequentialRead 0x1fff 40, .writeByte 0x1fff 0x5a, .readByte 0x1fff].foldl
        (pins (At24c1024.wired false)) blank) rom' :=
  pins_refine holds_mk ⟨fun _ => .inl rfl, trivial, trivial, trivial⟩

end Access

/-- **The STOP behind a block.** `eeprom_sequential_read` acknowledges the last byte as well, so that the
device already gives the next one when the STOP comes. The bytes are right in any case, and nothing is
written. -/
theorem readBlock_stop_iff {strong : Bool} {b : Bus At24c1024} {rom : Eeprom} (h : Holds b rom)
    (addr : Word) (len : ℕ) :
    (readBlock (At24c1024.wired strong) addr len b).2 =
        (List.range len).map (fun i => rom (addr.setWidth 17 + BitVec.ofNat 17 i)) ∧
      (readBlock (At24c1024.wired strong) addr len b).1.dev.rom = rom ∧
        ((readBlock (At24c1024.wired strong) addr len b).1.Free ↔ Released strong rom addr len) := by
  obtain ⟨d, bits, drives, level, hrom, hlatch, hread⟩ := readBlock_free h addr len
  rw [hread]
  refine ⟨rfl, ?_⟩
  by_cases hfree : Released strong rom addr len
  · dsimp only
    rw [stop_gives (l := At24c1024.wired strong) hfree]
    exact ⟨hlatch, iff_of_true ⟨rfl, rfl, rfl, rfl⟩ hfree⟩
  · obtain ⟨hbit, hweak⟩ := not_or.mp hfree
    rw [Bool.not_eq_true] at hbit hweak
    dsimp only
    rw [hbit, stop_held hweak]
    exact ⟨hrom, iff_of_false (fun hbus => Phase.noConfusion hbus.phase) hfree⟩

theorem readBlock_stop_blank :
    (readBlock (At24c1024.wired false) 0x1fff 3 Access.blank).2 =
        (List.range 3).map (fun i => Access.blank.dev.rom
          (BitVec.setWidth 17 (0x1fff : Word) + BitVec.ofNat 17 i)) ∧
      (readBlock (At24c1024.wired false) 0x1fff 3 Access.blank).1.dev.rom = Access.blank.dev.rom ∧
        ((readBlock (At24c1024.wired false) 0x1fff 3 Access.blank).1.Free ↔
          Released false Access.blank.dev.rom 0x1fff 3) :=
  readBlock_stop_iff (b := Access.blank) ⟨⟨rfl, rfl, rfl, rfl⟩, rfl⟩ 0x1fff 3

end Iic

end SingleScan
