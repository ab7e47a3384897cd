import SingleScan.Update2Nios

/-!
# Frames

What goes up the laser FIFO, as one object: a head word, a length word, as many payload words as the
kind of the frame says, and a closing word. Both ends are measured against it: the sender in
`Proof.Update2Nios`, the receive loop of the Nios core in `Proof.MainLoop`.
-/

namespace SingleScan

open Update2Nios

inductive Kind
  | distance | status
deriving DecidableEq, Repr

def Kind.command : Kind → BitVec 16
  | .distance => upDistanceData
  | .status => upFpgaStatus

def Kind.dataLen : Kind → Nat
  | .distance => cycleDataLen
  | .status => statusDataLen

/-- The value of `tx_command` and `tx_data_len` for a kind. -/
def Kind.tx (kind : Kind) : BitVec 32 × BitVec 16 :=
  (kind.command.setWidth 32, BitVec.ofNat 16 kind.dataLen)

/-- The closing word; a distance frame has the alarms of the three regions in it. -/
def Kind.closing (kind : Kind) (alarms : BitVec 3) : Word :=
  match kind with
  | .distance => (0 : BitVec 1) ++ alarms ++ (0xeeeeeee : BitVec 28)
  | .status => 0xeeeeeeee

/-- A complete frame. -/
structure Frame where
  kind : Kind
  payload : List Word
  alarms : BitVec 3
  complete : payload.length = kind.dataLen

/-- The head word and the length word of a kind. -/
def Kind.header (kind : Kind) : List Word :=
  [txHead ++ kind.command, BitVec.ofNat 32 kind.dataLen]

def Frame.words (f : Frame) : List Word :=
  f.kind.header ++ f.payload ++ [f.kind.closing f.alarms]

/-- The signals of `SingleScan.v` that a status frame reports. -/
structure Status where
  zeroPulseWidth : BitVec 12
  alarmIo : BitVec 3
  uploadEn : Bool
  sysTemp : BitVec 32
  dustCnt : BitVec 10
  zeroValue : BitVec 16
  motorBlock : Bool
  cycleCnt : BitVec 32

/-- `fpga_status`. -/
def Status.fpgaStatus (v : Status) : BitVec 256 :=
  (0 : BitVec 96) ++
    ((0 : BitVec 17) ++ v.zeroPulseWidth ++ v.alarmIo : BitVec 32) ++
    (BitVec.ofBool v.uploadEn ++ v.sysTemp.extractLsb' 0 31 : BitVec 32) ++
    ((0 : BitVec 22) ++ v.dustCnt : BitVec 32) ++
    ((0 : BitVec 16) ++ v.zeroValue : BitVec 32) ++
    (BitVec.ofBool v.motorBlock ++ v.cycleCnt.extractLsb' 0 31 : BitVec 32)

/-- The status frame for these signals. -/
def Status.frame (v : Status) : Frame where
  kind := .status
  payload := (List.range statusDataLen).filterMap (statusWord v.fpgaStatus)
  alarms := v.alarmIo
  complete := rfl

end SingleScan
