import SingleScan.SysPara

/-!
# The EEPROM

`iic.c`: what the bit-banged accesses do to the AT24C1024, a memory of 128 KiB. Bit 16 of the address
travels in the command byte, and a page write stays in its page of 256 bytes.
-/

namespace SingleScan

abbrev Eeprom := BitVec 17 → Byte

/-- `EEPROM_PAGE_SIZE`. -/
def eepromPageSize : ℕ := 256

/-- `AT24C1024_MAX_ADDR`. -/
def at24c1024MaxAddr : ℕ := 131072 - 11072

/-- One byte is stored. -/
def Eeprom.store (rom : Eeprom) (addr : BitVec 17) (dat : Byte) : Eeprom :=
  fun a => if a = addr then dat else rom a

/-- `eeprom_write_byte`. -/
def eepromWriteByte (rom : Eeprom) (addr : Word) (dat : Byte) : Eeprom :=
  rom.store (addr.setWidth 17) dat

/-- Where byte `j` of page write `i` goes: bit 16 comes from the start address, and the lowest eight
bits roll over. -/
def pageAddress (addr : Word) (i j : ℕ) : BitVec 17 :=
  let i2cAddr := addr + BitVec.ofNat 32 (i * eepromPageSize)
  (addr.extractLsb' 16 1 ++ i2cAddr.extractLsb' 8 8) ++ (i2cAddr.setWidth 8 + BitVec.ofNat 8 j)

/-- `eeprom_write_page`. -/
def eepromWritePage (rom : Eeprom) (addr : Word) (dat : List Byte) : Eeprom :=
  dat.zipIdx.foldl
    (fun rom (byte, k) => rom.store (pageAddress addr (k / eepromPageSize) (k % eepromPageSize)) byte)
    rom

/-- `eeprom_read_byte`. -/
def eepromReadByte (rom : Eeprom) (addr : Word) : Byte :=
  if at24c1024MaxAddr < addr.toNat then 0xff else rom (addr.setWidth 17)

/-- `eeprom_sequential_read` of `len` bytes; above the highest address it leaves the destination as
it is. -/
def eepromSequentialRead (rom : Eeprom) (addr : Word) (len : ℕ) : Option (List Byte) :=
  if at24c1024MaxAddr < addr.toNat then none
  else some ((List.range len).map fun i => rom (addr.setWidth 17 + BitVec.ofNat 17 i))

end SingleScan
