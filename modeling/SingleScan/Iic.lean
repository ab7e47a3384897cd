import SingleScan.Eeprom
import SingleScan.Lib.I2c

/-!
# The EEPROM at the pins

`iic.c` down to the writes of the two ports, and the AT24C1024 as its data sheet describes it: what a
START, a STOP and each byte do. The delays are taken to be long enough, also those for a write cycle.
-/

namespace SingleScan

open I2c

/-! ### The device -/

/-- What the device takes the next byte for. -/
inductive Expects
  | nothing | command | addrHigh | addrLow | data | reading
deriving DecidableEq, Repr

structure At24c1024 where
  rom : Eeprom
  /-- The memory once the bytes that have come in are written. -/
  latch : Eeprom
  pointer : BitVec 17
  expects : Expects

namespace At24c1024

/-- A byte comes in. The command is `1010 00`, bit 16 of the address and the direction. -/
def receive (d : At24c1024) (byte : Byte) : Option At24c1024 :=
  match d.expects with
  | .nothing | .reading => none
  | .command =>
      if byte.extractLsb' 2 6 ≠ 0b101000 then none
      else if byte.getLsbD 0 then some { d with expects := .reading }
      else
        some { d with
          pointer := byte.extractLsb' 1 1 ++ d.pointer.setWidth 16
          expects := .addrHigh }
  | .addrHigh =>
      some { d with
        pointer := d.pointer.extractLsb' 16 1 ++ byte ++ d.pointer.setWidth 8
        expects := .addrLow }
  | .addrLow =>
      some { d with pointer := d.pointer.extractLsb' 8 9 ++ byte, expects := .data }
  | .data =>
      some { d with
        latch := d.latch.store d.pointer byte
        pointer := d.pointer.extractLsb' 8 9 ++ (d.pointer.setWidth 8 + 1) }

/-- A START gives up what a STOP would have written. -/
def target : Target At24c1024 where
  start d := { d with latch := d.rom, expects := .command }
  stop d := { d with rom := d.latch, expects := .nothing }
  receive := receive
  send d := if d.expects = .reading then some (d.rom d.pointer) else none
  acked d := { d with pointer := d.pointer + 1 }

end At24c1024

/-- The device on the bus. -/
def At24c1024.wired (strong : Bool) : Wiring At24c1024 := ⟨target, strong⟩

/-! ### The driver -/

namespace Iic

variable {σ : Type*} (l : Wiring σ)

/-- `start`. -/
def start (b : Bus σ) : Bus σ :=
  b |>.direction l true |>.data l true |>.clock l true |>.data l false

/-- `stop`. -/
def stop (b : Bus σ) : Bus σ :=
  b |>.direction l true |>.data l false |>.clock l false |>.clock l true |>.data l true

/-- `wait_slave_ack`. -/
def waitSlaveAck (b : Bus σ) : Bus σ :=
  let b := b |>.clock l false |>.direction l false |>.clock l true
  let tmp := b.sda l
  let b := b.clock l false
  if tmp then stop l b else b

/-- `master_send_ack`. -/
def masterSendAck (b : Bus σ) : Bus σ :=
  b |>.clock l false |>.direction l true |>.data l false |>.clock l true |>.clock l false

/-- `no_ack`. -/
def noAck (b : Bus σ) : Bus σ :=
  b |>.clock l false |>.direction l true |>.data l true |>.clock l true |>.clock l false

/-- A round of the loop of `iic_write`, on the bus and `dat`. -/
def writeBit (s : Bus σ × Byte) : Bus σ × Byte :=
  (s.1 |>.clock l false |>.data l (s.2.getMsbD 0) |>.clock l true, s.2 <<< 1)

/-- `iic_write`. -/
def iicWrite (dat : Byte) (b : Bus σ) : Bus σ :=
  ((writeBit l)^[8] (b.direction l true, dat)).1

/-- A round of the loop of `iic_read`, on the bus and `dat`. -/
def readBit (s : Bus σ × Byte) : Bus σ × Byte :=
  let b := s.1 |>.clock l false |>.clock l true
  (b, Bits.shiftIn s.2 (b.sda l))

/-- `iic_read`. -/
def iicRead (b : Bus σ) : Bus σ × Byte := (readBit l)^[8] (b.direction l false, 0)

/-- `iic_write` and `wait_slave_ack`. -/
def send (b : Bus σ) (dat : Byte) : Bus σ := waitSlaveAck l (iicWrite l dat b)

/-- `cmd`, with bit 16 of the address. -/
def command (addr : Word) : Byte := 0xa0#8 ||| ((addr >>> 15).setWidth 8 &&& 0x02#8)

/-- `start` and the three bytes that say where; `cmd` is made of `addr`. -/
def setAddress (addr i2cAddr : Word) (b : Bus σ) : Bus σ :=
  let b := send l (start l b) (command addr)
  let b := send l b (i2cAddr.extractLsb' 8 8)
  send l b (i2cAddr.setWidth 8)

/-- `eeprom_write_byte`. -/
def writeByte (addr : Word) (dat : Byte) (b : Bus σ) : Bus σ :=
  stop l (send l (setAddress l addr addr b) dat)

/-- Page `i` of `eeprom_write_page`, of which `count` bytes are written. -/
def writePiece (addr : Word) (dat : ℕ → Byte) (i count : ℕ) (b : Bus σ) : Bus σ :=
  let b := setAddress l addr (addr + BitVec.ofNat 32 (i * eepromPageSize)) b
  stop l ((List.range count).foldl (fun b j => send l b (dat (i * eepromPageSize + j))) b)

/-- `eeprom_write_page`. -/
def writePage (addr : Word) (dat : ℕ → Byte) (len : BitVec 16) (b : Bus σ) : Bus σ :=
  let number := len.toNat / eepromPageSize
  let remain := len.toNat % eepromPageSize
  let b := (List.range number).foldl (fun b i => writePiece l addr dat i eepromPageSize b) b
  if remain ≠ 0 then writePiece l addr dat number remain b else b

/-- The address is sent, and the device is told to read from there. -/
def seek (addr : Word) (b : Bus σ) : Bus σ :=
  send l (start l (setAddress l addr addr b)) (command addr ||| 0x01#8)

/-- `eeprom_read_byte`. -/
def readByte (addr : Word) (b : Bus σ) : Bus σ × Byte :=
  if at24c1024MaxAddr < addr.toNat then (b, 0xff)
  else
    let s := iicRead l (seek l addr b)
    (stop l (noAck l s.1), s.2)

/-- A round of the loop of `eeprom_sequential_read`, on the bus and the bytes so far. -/
def readNext (s : Bus σ × List Byte) : Bus σ × List Byte :=
  let r := iicRead l s.1
  (masterSendAck l r.1, s.2 ++ [r.2])

/-- `eeprom_sequential_read` up to its `stop`. -/
def readBlock (addr : Word) (len : ℕ) (b : Bus σ) : Bus σ × List Byte :=
  let s := (readNext l)^[len] (seek l addr b, [])
  (stop l (noAck l s.1), s.2)

/-- `eeprom_sequential_read`. Its last call is of `eeprom_read_byte`, whose byte is thrown away. -/
def sequentialRead (addr : Word) (len : BitVec 16) (b : Bus σ) : Bus σ × Option (List Byte) :=
  if at24c1024MaxAddr < addr.toNat then (b, none)
  else
    let s := readBlock l addr len.toNat b
    ((readByte l addr s.1).1, some s.2)

end Iic

end SingleScan
