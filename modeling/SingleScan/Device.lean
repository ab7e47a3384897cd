import SingleScan.Region

/-!
# The device behind the PC connection

The memory that a packet of the PC can read or change, the EEPROM, the configuration flash and the
words for the FPGA; and `remote_update.c`. The flash and its driver are a parameter. `padding` are the
bytes of `SysPara` between its members, and `stack` what the variable `checksum` of `pc2dev_packet`
holds before its first assignment, call by call.
-/

namespace SingleScan

/-- The flash driver: `alt_flash_open_dev` finds the device, and the three accesses at an address. -/
structure FlashDriver (φ : Type) where
  present : φ → Bool
  writeBlock : φ → Word → Word → (Fin 256 → Byte) → φ
  read : φ → Word → (Fin 256 → Byte) → Fin 256 → Byte
  eraseBlock : φ → Word → Word → φ

/-- `update_t`. -/
structure Update where
  addr : Word
  data : Fin 256 → Byte

/-- `pc2nios_t`. -/
structure Pc2Nios where
  head : Word
  command : Word
  dataLen : Word

/-- `nios2pc_t`. -/
structure Nios2Pc where
  head : Word
  command : Word
  dataLen : Word
  value : Word

structure Device (φ : Type) where
  nios : Nios
  resetNios : Word
  alarmRegion : Region
  eeprom : Eeprom
  fpga : List Word
  pc2nios : Pc2Nios
  nios2pc : Nios2Pc
  image : Update
  flash : φ
  sMI3EFlag : Byte
  padding : Fin 3 → Byte
  stack : ℕ → Byte

variable {φ : Type}

/-- `EPCS_BLOCK_SIZE`. -/
def epcsBlockSize : Word := 65536

/-- `image_write`. -/
def imageWrite (driver : FlashDriver φ) (flash : φ) (addr : Word) (data : Fin 256 → Byte) : φ :=
  let blockAddr := addr.sdiv epcsBlockSize * epcsBlockSize
  let offset := addr.srem epcsBlockSize
  if driver.present flash then driver.writeBlock flash blockAddr (blockAddr + offset) data else flash

/-- `image_read`, over the old content of `data`. -/
def imageRead (driver : FlashDriver φ) (flash : φ) (addr : Word) (data : Fin 256 → Byte) :
    Fin 256 → Byte :=
  if driver.present flash then driver.read flash addr data else data

/-- `image_erase`. -/
def imageErase (driver : FlashDriver φ) (flash : φ) (blockOffset : Word) : φ :=
  if driver.present flash then driver.eraseBlock flash (blockOffset * epcsBlockSize) epcsBlockSize
  else flash

namespace Device

/-- An assignment to members of `SysPara`. -/
def setPara (d : Device φ) (f : SysPara → SysPara) : Device φ :=
  { d with nios := { d.nios with sysPara := f d.nios.sysPara } }

/-- `memcpy` into `send_buffer`. -/
def fill (d : Device φ) (offset : ℕ) (src : List Byte) : Device φ :=
  { d with nios := { d.nios with sendBuffer := memcpy d.nios.sendBuffer offset src } }

/-- `send(s, send_buffer, len)`. -/
def send (d : Device φ) (socket len : ℕ) : Device φ := { d with nios := d.nios.send socket len }

/-- `set_laser_paramter`. -/
def setLaserParamter (d : Device φ) (command : BitVec 16) (data : Word) : Device φ :=
  { d with fpga := d.fpga ++ SingleScan.setLaserParamter command data }

/-- `region_read_from_rom(&alarm_region, num)`. -/
def regionReadFromRom (d : Device φ) (num : Word) : Device φ :=
  let (region, words) := SingleScan.regionReadFromRom d.eeprom d.alarmRegion num
  { d with alarmRegion := region, fpga := d.fpga ++ words }

end Device

end SingleScan
