import SingleScan.Device

/-!
# The SOPAS telegrams

`sick_protocol.c`: a telegram of the TiM561 is looked up in a table of 572 known ones and answered
with the fixed response. The texts of `tim561.c` are a parameter.
-/

namespace SingleScan

/-- A string in memory. `behind` is what follows the terminating zero, where `string2hex` reads. -/
structure CString where
  text : List Byte
  noNul : ∀ c ∈ text, c ≠ 0
  behind : Bytes

/-- The byte at an index. -/
def CString.byte (s : CString) (i : ℕ) : Byte :=
  if h : i < s.text.length then s.text.get ⟨i, h⟩
  else if i = s.text.length then 0
  else s.behind (i - s.text.length - 1)

/-- `strlen`. -/
def CString.strlen (s : CString) : ℕ := s.text.length

/-- The arrays of `tim561.c`. No telegram of the table contains an ETX, and every response begins with
`0` or `s`. -/
structure Tim561 where
  tim561Index : Fin 572 → CString
  tim561Respons : Fin 572 → CString
  sMI03F4724744Start : Fin 2 → CString
  sMI03F4724744Stop : Fin 4 → CString
  sMIReply : Fin 11 → CString
  sRIE6Reply : Fin 5 → CString
  sRI15BReply : CString
  sRI1DCReply : CString
  noEtx : ∀ i, ∀ c ∈ (tim561Index i).text, c ≠ 0x03
  answered : ∀ i, (tim561Respons i).byte 0 = 0x30 ∨ (tim561Respons i).byte 0 = 0x73

/-- `strncmp(a, b, n) == 0`. -/
def strncmpEq (a b : Bytes) : ℕ → Bool
  | 0 => true
  | n + 1 => a 0 == b 0 && (a 0 == 0 || strncmpEq (fun i => a (i + 1)) (fun i => b (i + 1)) n)

/-- A literal in memory, up to its terminating zero. -/
def literal (text : List Byte) : Bytes := fun i => text.getD i 0

theorem literal_append_left {left right : List Byte} {i : ℕ} (hi : i < left.length) :
    literal (left ++ right) i = literal left i := by
  simp [literal, hi, List.getElem?_append_left hi]

theorem literal_append_right (left right : List Byte) (i : ℕ) :
    literal (left ++ right) (left.length + i) = literal right i := by
  simp [literal, List.getElem?_append_right]

/-- `strncmp(recv_command, text, strlen(text)) == 0`. -/
def startsWith (recvCommand : Bytes) (text : List Byte) : Bool :=
  strncmpEq recvCommand (literal text) text.length

/-- `find_index`, over `tim561_index`. -/
def findIndex (t : Tim561) (str : Bytes) (strLen : ℤ) : Option (Fin 572) :=
  (List.finRange 572).find? fun i =>
    decide (((t.tim561Index i).strlen : ℤ) = strLen) &&
      strncmpEq str (t.tim561Index i).byte strLen.toNat

/-- `string2hex`: the bytes it writes for the length `len`. It reads two characters for each. -/
def string2hex (src : CString) (len : ℕ) : List Byte :=
  (List.range len).map fun i =>
    ((src.byte (2 * i) - 0x30) <<< 4) + (src.byte (2 * i + 1) - 0x30)

/-- `"sMI 0 3 F4724744"`. -/
def sMI03F4724744 : List Byte :=
  [0x73, 0x4d, 0x49, 0x20, 0x30, 0x20, 0x33, 0x20, 0x46, 0x34, 0x37, 0x32, 0x34, 0x37, 0x34, 0x34]

/-- `"sMI 2"`. -/
def sMI2 : List Byte := [0x73, 0x4d, 0x49, 0x20, 0x32]

/-- `"sMI 3E"`. -/
def sMI3E : List Byte := [0x73, 0x4d, 0x49, 0x20, 0x33, 0x45]

/-- `"sMI 3F"`. -/
def sMI3F : List Byte := [0x73, 0x4d, 0x49, 0x20, 0x33, 0x46]

/-- `"sRI E6"`. -/
def sRIE6 : List Byte := [0x73, 0x52, 0x49, 0x20, 0x45, 0x36]

/-- `"sRI 15B"`. -/
def sRI15B : List Byte := [0x73, 0x52, 0x49, 0x20, 0x31, 0x35, 0x42]

/-- `"sRI 1DC"`. -/
def sRI1DC : List Byte := [0x73, 0x52, 0x49, 0x20, 0x31, 0x44, 0x43]

namespace Device

variable {φ : Type}

/-- A response in characters, between STX and ETX. -/
def sendText (d : Device φ) (socket : ℕ) (s : CString) : Device φ :=
  (((d.fill 1 s.text).fill 0 [0x02]).fill (s.strlen + 1) [0x03]).send socket (s.strlen + 2)

/-- A response in hexadecimal digits. -/
def sendHex (d : Device φ) (socket : ℕ) (s : CString) : Device φ :=
  (d.fill 0 (string2hex s s.strlen)).send socket (s.strlen / 2)

/-- The loops that send one response after the other. -/
def sendTexts (d : Device φ) (socket : ℕ) (texts : List CString) : Device φ :=
  texts.foldl (fun d s => d.sendText socket s) d

def sendHexs (d : Device φ) (socket : ℕ) (texts : List CString) : Device φ :=
  texts.foldl (fun d s => d.sendHex socket s) d

/-- The first chain of conditions: what is sent for entry `pos`, and `enable_flag`. -/
def respond (d : Device φ) (t : Tim561) (socket : ℕ) (recvCommand : Bytes) (pos : Fin 572) :
    Device φ × ℕ :=
  if startsWith recvCommand sMI03F4724744 then
    if d.nios.sysPara.updatePosFlag = false then
      (d.sendTexts socket (List.ofFn t.sMI03F4724744Start), 0)
    else (d.sendTexts socket (List.ofFn t.sMI03F4724744Stop), 0)
  else if startsWith recvCommand sMI2 then
    if d.sMI3EFlag = 1 then (d.sendTexts socket (List.ofFn t.sMIReply), 1)
    else (d.sendText socket (t.sMIReply 0), 2)
  else if (t.tim561Respons pos).byte 0 = 0x30 then (d.sendHex socket (t.tim561Respons pos), 0)
  else if (t.tim561Respons pos).byte 0 = 0x73 then (d.sendText socket (t.tim561Respons pos), 0)
  else (d, 0)

/-- `sMI_3E_flag` follows start and stop of the measurement. -/
def noteMeasurement (d : Device φ) (recvCommand : Bytes) : Device φ :=
  if startsWith recvCommand sMI3E then { d with sMI3EFlag := 1 }
  else if startsWith recvCommand sMI3F then { d with sMI3EFlag := 0 }
  else d

/-- The long responses that follow the one from the table. -/
def respondLong (d : Device φ) (t : Tim561) (socket : ℕ) (recvCommand : Bytes) : Device φ :=
  if startsWith recvCommand sRIE6 then d.sendHexs socket (List.ofFn t.sRIE6Reply)
  else if startsWith recvCommand sRI15B then d.sendHex socket t.sRI15BReply
  else if startsWith recvCommand sRI1DC then d.sendHex socket t.sRI1DCReply
  else d

/-- `UPLOAD_EN`. -/
def uploadEn : BitVec 16 := 0xb000

/-- What `enable_flag` asks for. -/
def applyEnable (d : Device φ) (enableFlag : ℕ) : Device φ :=
  if enableFlag = 1 then
    (d.setLaserParamter uploadEn enable).setPara fun p => { p with updatePosFlag := true }
  else if enableFlag = 2 then
    (d.setLaserParamter uploadEn disable).setPara fun p => { p with updatePosFlag := false }
  else d

/-- `sick_protocol_process`. -/
def sickProtocolProcess (d : Device φ) (t : Tim561) (socket : ℕ) (buf : Bytes) (len : Word) :
    Device φ :=
  let recvCommand : Bytes := fun i => buf (i + 1)
  match findIndex t recvCommand (len.toInt - 2) with
  | some pos =>
      let (d, enableFlag) := d.respond t socket recvCommand pos
      ((d.noteMeasurement recvCommand).respondLong t socket recvCommand).applyEnable enableFlag
  | none => d

end Device

end SingleScan
