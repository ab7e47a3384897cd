import SingleScan.Lib.Hex
import SingleScan.Proof.Firmware

/-!
# The scan telegram

The text of a frame is made of hexadecimal tokens, four digits for a distance and two for a gray value, each
behind a space. The telegram around it contains no zero, so that `main` finds its length, and that length
is odd, so that its last piece is never empty.
-/

namespace SingleScan

open Fpga2Nios

/-! ### The tokens -/

/-- A digit of a word. -/
def nibble (w : Word) (k : ℕ) : BitVec 4 := w.extractLsb' (4 * k) 4

/-- The digits of a distance and of a gray value. -/
def distanceToken (w : Word) : List Byte := [3, 2, 1, 0].map fun k => Hex.digit (nibble w k)

def grayToken (w : Word) : List Byte := [5, 4].map fun k => Hex.digit (nibble w k)

theorem hexDigit_nibble (n : BitVec 4) : hexDigit (n.setWidth 32) = (Hex.digit n).setWidth 32 := by
  revert n
  decide

theorem toNat_nibble (w : Word) (k : ℕ) : (nibble w k).toNat = w.toNat / 2 ^ (4 * k) % 16 := by
  rw [nibble, BitVec.extractLsb'_toNat, Nat.shiftRight_eq_div_pow]

theorem nibble_eq (w : Word) (k : ℕ) : (w >>> (4 * k)) &&& 0x0f = (nibble w k).setWidth 32 := by
  have hmask : (0x0f : Word) = BitVec.ofNat 32 (2 ^ 4 - 1) := rfl
  have hlt : w.toNat / 2 ^ (4 * k) % 16 < 2 ^ 32 :=
    Nat.lt_of_lt_of_le (Nat.mod_lt _ (by decide)) (by decide)
  apply BitVec.eq_of_toNat_eq
  rw [BitVec.toNat_and, BitVec.toNat_ushiftRight, hmask, BitVec.toNat_ofNat,
    Nat.mod_eq_of_lt (by decide), Nat.and_two_pow_sub_one_eq_mod, BitVec.toNat_setWidth,
    toNat_nibble, Nat.shiftRight_eq_div_pow, Nat.mod_eq_of_lt hlt]

theorem toNat_pack (a b c d : Byte) :
    ((a.setWidth 32 <<< 24) + (b.setWidth 32 <<< 16) + (c.setWidth 32 <<< 8) +
      (d.setWidth 32 <<< 0) : Word).toNat =
      a.toNat * 2 ^ 24 + b.toNat * 2 ^ 16 + c.toNat * 2 ^ 8 + d.toNat := by
  have ha := a.isLt
  have hb := b.isLt
  have hc := c.isLt
  have hd := d.isLt
  simp only [BitVec.toNat_add, BitVec.toNat_shiftLeft, BitVec.toNat_setWidth, Nat.shiftLeft_eq]
  omega

theorem byte_pack (a b c d : Byte) {w : Word}
    (hw : w.toNat = a.toNat * 2 ^ 24 + b.toNat * 2 ^ 16 + c.toNat * 2 ^ 8 + d.toNat) :
    (w >>> 24).setWidth 8 = a ∧ (w >>> 16).setWidth 8 = b ∧ (w >>> 8).setWidth 8 = c ∧
      (w >>> 0).setWidth 8 = d := by
  have ha := a.isLt
  have hb := b.isLt
  have hc := c.isLt
  have hd := d.isLt
  refine ⟨?_, ?_, ?_, ?_⟩ <;> apply BitVec.eq_of_toNat_eq <;>
    simp only [BitVec.toNat_setWidth, BitVec.toNat_ushiftRight, Nat.shiftRight_eq_div_pow, hw] <;>
    omega

theorem hex2ascii_toNat (w : Word) :
    (hex2ascii w).toNat = (Hex.digit (nibble w 3)).toNat * 2 ^ 24 +
      (Hex.digit (nibble w 2)).toNat * 2 ^ 16 + (Hex.digit (nibble w 1)).toNat * 2 ^ 8 +
      (Hex.digit (nibble w 0)).toNat := by
  rw [← toNat_pack]
  simp only [← hexDigit_nibble, ← nibble_eq]
  rfl

theorem distanceText_eq (w : Word) : distanceText w = 0x20 :: distanceToken w := by
  obtain ⟨h₃, h₂, h₁, h₀⟩ := byte_pack _ _ _ _ (hex2ascii_toNat w)
  rw [distanceText, h₃, h₂, h₁, h₀]
  rfl

theorem nibble_high (w : Word) (k : ℕ) : nibble ((w >>> 16) &&& 0xffff) k = nibble w (k + 4) := by
  have hmask : (0xffff : Word) = BitVec.ofNat 32 (2 ^ 16 - 1) := rfl
  have hhigh : ((w >>> 16) &&& 0xffff).toNat = w.toNat / 2 ^ 16 := by
    have hlt := w.isLt
    rw [BitVec.toNat_and, BitVec.toNat_ushiftRight, hmask, BitVec.toNat_ofNat,
      Nat.mod_eq_of_lt (by decide), Nat.and_two_pow_sub_one_eq_mod, Nat.shiftRight_eq_div_pow]
    exact Nat.mod_eq_of_lt (by omega)
  apply BitVec.eq_of_toNat_eq
  rw [toNat_nibble, toNat_nibble, hhigh, Nat.div_div_eq_div_mul, ← Nat.pow_add,
    show 16 + 4 * k = 4 * (k + 4) by omega]

theorem grayText_eq (w : Word) : grayText w = 0x20 :: grayToken w := by
  obtain ⟨-, -, h₁, h₀⟩ := byte_pack _ _ _ _ (hex2ascii_toNat ((w >>> 16) &&& 0xffff))
  rw [grayText, h₁, h₀, nibble_high, nibble_high]
  rfl

theorem mem_token {w : Word} {c : Byte} (hc : c ∈ distanceToken w ∨ c ∈ grayToken w) :
    Hex.IsDigit c := by
  simp only [distanceToken, grayToken, List.mem_map] at hc
  rcases hc with ⟨k, -, rfl⟩ | ⟨k, -, rfl⟩ <;> exact Hex.isDigit_digit _

theorem space_not_mem {w : Word} : 0x20 ∉ distanceToken w ∧ 0x20 ∉ grayToken w :=
  ⟨fun hc => absurd (mem_token (.inl hc)) (by decide),
    fun hc => absurd (mem_token (.inr hc)) (by decide)⟩

theorem read_distanceToken (w : Word) : Hex.read (distanceToken w) = w.toNat % 2 ^ 16 := by
  simp only [distanceToken, List.map_cons, List.map_nil, Hex.read, List.foldl_cons, List.foldl_nil,
    Hex.value_digit, toNat_nibble]
  omega

theorem read_grayToken (w : Word) : Hex.read (grayToken w) = w.toNat / 2 ^ 16 % 2 ^ 8 := by
  simp only [grayToken, List.map_cons, List.map_nil, Hex.read, List.foldl_cons, List.foldl_nil,
    Hex.value_digit, toNat_nibble]
  omega

/-- Splitting at spaces, and reading each token. -/
def readTokens (text : List Byte) : List ℕ := (text.splitOn 0x20).tail.map Hex.read

theorem readTokens_distance (ws : List Word) :
    readTokens (ws.flatMap distanceText) = ws.map fun w => w.toNat % 2 ^ 16 := by
  have htext : ws.flatMap distanceText = (ws.map distanceToken).flatMap (0x20 :: ·) := by
    rw [List.flatMap_map]
    exact congrArg (fun f => ws.flatMap f) (funext distanceText_eq)
  rw [readTokens, htext, Hex.splitOn_flatMap]
  · rw [List.tail_cons, List.map_map]
    refine List.map_congr_left fun w _ => ?_
    rw [Function.comp_apply, read_distanceToken]
  · intro t ht
    obtain ⟨w, -, rfl⟩ := List.mem_map.1 ht
    exact space_not_mem.1

theorem readTokens_gray (ws : List Word) :
    readTokens (ws.flatMap grayText) = ws.map fun w => w.toNat / 2 ^ 16 % 2 ^ 8 := by
  have htext : ws.flatMap grayText = (ws.map grayToken).flatMap (0x20 :: ·) := by
    rw [List.flatMap_map]
    exact congrArg (fun f => ws.flatMap f) (funext grayText_eq)
  rw [readTokens, htext, Hex.splitOn_flatMap]
  · rw [List.tail_cons, List.map_map]
    refine List.map_congr_left fun w _ => ?_
    rw [Function.comp_apply, read_grayToken]
  · intro t ht
    obtain ⟨w, -, rfl⟩ := List.mem_map.1 ht
    exact space_not_mem.2

/-! ### The frame -/

namespace Nios

/-- The queue holds a distance frame with this payload and this closing word, behind words that begin no
frame. -/
def HoldsDistance (s : Nios) (ws : List Word) (closing : Word) : Prop :=
  ∃ pre head len rest log, (∀ w ∈ pre, w.high ≠ frameHead) ∧ head.high = frameHead ∧
    head.low = Fpga2Nios.distanceData ∧ len.toNat = ws.length ∧
      Holds s (pre ++ head :: len :: (ws ++ closing :: rest)) log

/-- A payload of `ws`, as text. -/
structure Texts (data : UpDataFrame) (ws : List Word) : Prop where
  distanceLen : data.distanceLen.toNat = 5 * ws.length
  grayLen : data.grayLen.toNat = 3 * ws.length
  distanceData : (List.range data.distanceLen.toNat).map data.distanceData = ws.flatMap distanceText
  grayData : (List.range data.grayLen.toNat).map data.grayData = ws.flatMap grayText

variable {s : Nios} {ws : List Word} {closing : Word}

/-- **A distance frame.** -/
theorem parse_distance (h : HoldsDistance s ws closing) (hshort : ws.length ≤ targetNumber)
    (hgood : closing &&& 0xfffffff = 0xeeeeeee) :
    s.fpga2niosParse.cycleData.posFinish = true ∧ Texts s.fpga2niosParse.cycleData ws := by
  have hsize : targetNumber = 811 := rfl
  obtain ⟨pre, head, len, rest, log, hpre, hhead, hlow, hlen, hholds⟩ := h
  obtain ⟨hcommand, hdataLen, hbody⟩ := parseHeader_holds hpre hhead hholds
  have hparse := fpga2niosParse_distance (hcommand.trans hlow)
  let s₀ : Nios := { s.parseHeader with
    cycleData := { s.parseHeader.cycleData with distanceLen := 0, grayLen := 0 } }
  have hstart : Holds s₀ (ws ++ closing :: rest) _ := ⟨hbody.valid, hbody.contents, hbody.pops⟩
  have hturns : s.parseHeader.fpga2niosData.dataLen.toNat = ws.length := by rw [hdataLen, hlen]
  obtain ⟨htext, htext'⟩ := distanceStep_text hstart rfl rfl (n := ws.length) (by simp) (by omega)
  obtain ⟨hdistance, hgray⟩ := distanceStep_lens (s := s₀) rfl rfl ws.length
  rw [List.take_left' rfl] at htext htext'
  have hdone := (distanceStep_iterate_sameQueue ws.length s₀).holds
    (hstart.popMany (n := ws.length) (by simp))
  rw [List.drop_left' rfl] at hdone
  obtain ⟨hdata, -⟩ := parseDistance_good (s := s.parseHeader) (show s₀ = _ from rfl) rfl
    (by rw [hturns, hdone.queuePop.1]; exact hgood)
  rw [hturns] at hdata
  have hdistanceLen : (BitVec.ofNat 32 (5 * ws.length)).toNat = 5 * ws.length := by
    rw [BitVec.toNat_ofNat]
    exact Nat.mod_eq_of_lt (by omega)
  have hgrayLen : (BitVec.ofNat 32 (3 * ws.length)).toNat = 3 * ws.length := by
    rw [BitVec.toNat_ofNat]
    exact Nat.mod_eq_of_lt (by omega)
  rw [hparse, hdata]
  refine ⟨rfl, ?_, ?_, ?_, ?_⟩
  · rw [hdistance, hdistanceLen]
  · rw [hgray, hgrayLen]
  · rw [hdistance, hdistanceLen, htext]
  · rw [hgray, hgrayLen, htext']

/-- **Decoding.** The texts of a distance frame, split at spaces and read as hexadecimal numbers, are the
distances and the gray values of its words. -/
theorem readTokens_parse (h : HoldsDistance s ws closing) (hshort : ws.length ≤ targetNumber)
    (hgood : closing &&& 0xfffffff = 0xeeeeeee) (hgray : ∀ w ∈ ws, w.high.toNat ≤ 0xff) :
    readTokens ((List.range s.fpga2niosParse.cycleData.distanceLen.toNat).map
        s.fpga2niosParse.cycleData.distanceData) = ws.map (fun w => w.low.toNat) ∧
      readTokens ((List.range s.fpga2niosParse.cycleData.grayLen.toNat).map
        s.fpga2niosParse.cycleData.grayData) = ws.map fun w => w.high.toNat := by
  obtain ⟨-, htexts⟩ := parse_distance h hshort hgood
  rw [htexts.distanceData, htexts.grayData, readTokens_distance, readTokens_gray]
  refine ⟨List.map_congr_left fun w _ => ?_, List.map_congr_left fun w hw => ?_⟩
  · rw [Word.low, BitVec.toNat_setWidth]
  · have hhigh := hgray w hw
    have hlt := w.isLt
    rw [Word.high, BitVec.extractLsb'_toNat, Nat.shiftRight_eq_div_pow] at hhigh ⊢
    rw [Nat.mod_eq_of_lt (show w.toNat / 2 ^ 16 < 2 ^ 16 by omega)] at hhigh ⊢
    exact Nat.mod_eq_of_lt (by omega)

/-- The memory with a distance frame in the queue. -/
def withDistances (s : Nios) (ws : List Word) : Nios :=
  { s with
    laserDataQueue :=
      Queue.holding (0x1234a003 :: BitVec.ofNat 32 ws.length :: (ws ++ [0x0eeeeeee])) }

theorem holdsDistance_withDistances (s : Nios) (hshort : ws.length ≤ targetNumber) :
    HoldsDistance (s.withDistances ws) ws 0x0eeeeeee := by
  have hsize : targetNumber = 811 := rfl
  have hroom : (0x1234a003 :: BitVec.ofNat 32 ws.length :: (ws ++ [0x0eeeeeee])).length < 2048 := by
    simp only [List.length_cons, List.length_append, List.length_nil]
    omega
  refine ⟨[], 0x1234a003, BitVec.ofNat 32 ws.length, [], s.pops, List.forall_mem_nil _, by decide,
    by decide, ?_, Queue.valid_holding hroom, Queue.contents_holding hroom, rfl⟩
  rw [BitVec.toNat_ofNat]
  exact Nat.mod_eq_of_lt (by omega)

/-- A frame of two words in memory. -/
def twoDistances : Nios := Nios.initial.withDistances [0x00210005, 0x00ff1abc]

theorem readTokens_two :
    readTokens ((List.range twoDistances.fpga2niosParse.cycleData.distanceLen.toNat).map
        twoDistances.fpga2niosParse.cycleData.distanceData) = [0x0005, 0x1abc] ∧
      readTokens ((List.range twoDistances.fpga2niosParse.cycleData.grayLen.toNat).map
        twoDistances.fpga2niosParse.cycleData.grayData) = [0x21, 0xff] := by
  have hholds : HoldsDistance twoDistances [0x00210005, 0x00ff1abc] 0x0eeeeeee :=
    holdsDistance_withDistances Nios.initial (by decide)
  have hgrays : ∀ w ∈ ([0x00210005, 0x00ff1abc] : List Word), w.high.toNat ≤ 0xff :=
    List.forall_mem_cons.2 ⟨by decide, List.forall_mem_singleton.2 (by decide)⟩
  obtain ⟨hdistance, hgray⟩ := readTokens_parse hholds (by decide) (by decide) hgrays
  rw [hdistance, hgray]
  decide

/-! ### The telegram -/

/-- The telegram with a payload, between STX and ETX. -/
def telegram (ws : List Word) : List Byte :=
  0x02 :: (frameStart ++ ws.flatMap distanceText ++ rssiFieldStart ++ ws.flatMap grayText ++
    rssiFieldEnd ++ [0x03])

theorem length_flatMap_const {α β : Type} {f : α → List β} {k : ℕ} (hf : ∀ x, (f x).length = k)
    (xs : List α) : (xs.flatMap f).length = k * xs.length := by
  induction xs with
  | nil => rfl
  | cons x xs ih =>
      rw [List.flatMap_cons, List.length_append, hf, ih, List.length_cons, Nat.mul_succ, Nat.add_comm]

theorem ascii_append (left right : String) : ascii (left ++ right) = ascii left ++ ascii right := by
  rw [ascii, String.toList_append, List.map_append]
  rfl

theorem length_ascii (chars : List Char) : (ascii (String.ofList chars)).length = chars.length := by
  rw [ascii, String.toList_ofList, List.length_map]

theorem ascii_ne_zero {chars : List Char}
    (h : chars.all (fun c => BitVec.ofNat 8 c.toNat != 0) = true) :
    ∀ c ∈ ascii (String.ofList chars), c ≠ 0 := by
  rw [ascii, String.toList_ofList, List.forall_mem_map]
  exact fun c hc => bne_iff_ne.1 (List.all_eq_true.1 h c hc)

theorem length_frameStart : frameStart.length = 108 := by
  have hheader : (ascii
      "sSI 5A 1 1 103B7B4 0 0 9D9 9DD B3E30A9 B3E44BC 0 0 1 0 0 5DC A2 0 2 DIST1 ").length = 74 :=
    length_ascii _
  have hscale : (ascii "3F800000 00000000 FFF92230 D05 32B").length = 34 := length_ascii _
  rw [frameStart, ascii_append, List.length_append, hheader, hscale]

theorem telegram_length (ws : List Word) : (telegram ws).length = 163 + 8 * ws.length := by
  have hrssi : rssiFieldStart.length = 41 := by
    rw [rssiFieldStart]
    exact length_ascii _
  have hend : rssiFieldEnd.length = 12 := by
    rw [rssiFieldEnd]
    exact length_ascii _
  have hdistance := length_flatMap_const distanceText_length ws
  have hgray := length_flatMap_const grayText_length ws
  rw [telegram, List.length_cons]
  simp only [List.length_append, length_frameStart, hrssi, hend, hdistance, hgray, List.length_singleton]
  omega

theorem fixed_ne_zero : ∀ c ∈ frameStart ++ rssiFieldStart ++ rssiFieldEnd, c ≠ 0 := by
  rw [frameStart, ascii_append]
  simp only [List.forall_mem_append]
  exact ⟨⟨⟨ascii_ne_zero rfl, ascii_ne_zero rfl⟩, ascii_ne_zero rfl⟩, ascii_ne_zero rfl⟩

theorem text_ne_zero {w : Word} {c : Byte} (hc : c ∈ distanceText w ∨ c ∈ grayText w) : c ≠ 0 := by
  rw [distanceText_eq, grayText_eq, List.mem_cons, List.mem_cons] at hc
  have hdigit : c = 0x20 ∨ Hex.IsDigit c := by
    rcases hc with (h | h) | (h | h)
    · exact .inl h
    · exact .inr (mem_token (.inl h))
    · exact .inl h
    · exact .inr (mem_token (.inr h))
  rcases hdigit with rfl | hdigit
  · decide
  · exact Hex.ne_of_isDigit hdigit (by decide)

theorem telegram_ne_zero {ws : List Word} {c : Byte} (hc : c ∈ telegram ws) : c ≠ 0 := by
  simp only [telegram, List.mem_cons, List.mem_append, List.not_mem_nil, or_false,
    List.mem_flatMap] at hc
  have hfixed := fixed_ne_zero c
  simp only [List.mem_append] at hfixed
  rcases hc with rfl | ((((h | ⟨w, -, h⟩) | h) | ⟨w, -, h⟩) | h) | rfl
  · decide
  · exact hfixed (.inl (.inl h))
  · exact text_ne_zero (.inl h)
  · exact hfixed (.inl (.inr h))
  · exact text_ne_zero (.inr h)
  · exact hfixed (.inr h)
  · decide

theorem strlen_eq {buf : Bytes} {n : ℕ} (hn : n < sendBufferSize) (hbefore : ∀ i < n, buf i ≠ 0)
    (hzero : buf n = 0) : strlen buf = n := by
  have hfind : (List.range sendBufferSize).find? (fun i => buf i == 0) = some n := by
    rw [List.find?_range_eq_some]
    exact ⟨by simpa using hzero, List.mem_range.2 hn, fun j hj => by simpa using hbefore j hj⟩
  rw [strlen, hfind, Option.getD_some]

theorem sickPosPacket_buffer (htexts : Texts s.cycleData ws) (hfit : 163 + 8 * ws.length < sendBufferSize) :
    (List.range (163 + 8 * ws.length)).map s.sickPosPacket.sendBuffer = telegram ws ∧
      strlen s.sickPosPacket.sendBuffer = 163 + 8 * ws.length := by
  let cleared : Bytes := fun k => if k < sendBufferSize then 0 else s.sendBuffer k
  have hbuffer : s.sickPosPacket.sendBuffer = memcpy cleared 0 (telegram ws) := by
    unfold sickPosPacket
    dsimp only
    rw [htexts.distanceData, htexts.grayData]
    rfl
  have htelegram := map_memcpy cleared 0 (telegram ws)
  rw [Nat.zero_add, telegram_length, List.range_zero, List.map_nil, List.nil_append, ← hbuffer]
    at htelegram
  refine ⟨htelegram, strlen_eq hfit (fun i hi => ?_) ?_⟩
  · have hmem : s.sickPosPacket.sendBuffer i ∈ telegram ws := by
      rw [← htelegram]
      exact List.mem_map.2 ⟨i, List.mem_range.2 hi, rfl⟩
    exact telegram_ne_zero hmem
  · have hbehind : (telegram ws)[163 + 8 * ws.length]? = none :=
      List.getElem?_eq_none (telegram_length ws).le
    rw [hbuffer, memcpy, if_pos (Nat.zero_le _), Nat.sub_zero, List.getD_eq_getElem?_getD, hbehind]
    exact if_pos hfit

/-! ### The pieces -/

/-- A piece goes to both sockets. -/
def toBoth (piece : List Byte) : List Sent := [⟨0, piece⟩, ⟨1, piece⟩]

/-- The status packet behind a telegram. -/
def regionStatus (s : Nios) : List Byte :=
  [0x12, 0x34, 0xc1, 0x01, 0, 0, 0, 4, 0, 0, 0, s.sysWarn.regionAlarm.setWidth 8,
    0xee, 0xee, 0xee, 0xee]

theorem sendRegionStatus_sent (s : Nios) :
    s.sendRegionStatus.sent = s.sent ++ toBoth s.regionStatus := by
  have hstatus : (List.range 16).map (memcpy s.sendBuffer 0 s.regionStatus) = s.regionStatus := by
    have hmap := map_memcpy s.sendBuffer 0 s.regionStatus
    rw [Nat.zero_add, List.range_zero, List.map_nil, List.nil_append] at hmap
    exact hmap
  have hsent : s.sendRegionStatus.sent =
      s.sent ++ [⟨0, (List.range 16).map (memcpy s.sendBuffer 0 s.regionStatus)⟩] ++
        [⟨1, (List.range 16).map (memcpy s.sendBuffer 0 s.regionStatus)⟩] := rfl
  rw [hsent, hstatus, List.append_assoc]
  rfl

/-- The bytes of `send_buffer` from `offset` to `len`. -/
def pending (buf : Bytes) (offset len : ℕ) : List Byte :=
  (List.range (len - offset)).map fun i => buf (offset + i)

theorem pending_split (buf : Bytes) {offset len k : ℕ} (hk : offset + k ≤ len) :
    pending buf offset len =
      (List.range k).map (fun i => buf (offset + i)) ++ pending buf (offset + k) len := by
  obtain ⟨m, rfl⟩ : ∃ m, len = offset + k + m := ⟨len - (offset + k), by omega⟩
  rw [pending, pending, show offset + k + m - offset = k + m by omega, Nat.add_sub_cancel_left,
    List.range_add, List.map_append, List.map_map]
  simp [Function.comp_def, Nat.add_assoc]

variable {len offset turns : ℕ}

/-- **The pieces.** Enough turns send everything behind `offset`, unless whole pieces do. -/
theorem sendPieces_sent (turns : ℕ) :
    ∀ (offset : ℕ) (s : Nios), strlen s.sendBuffer = len → (len - offset) % 1460 ≠ 0 →
      (len - offset) / 1460 < turns →
      ∃ pieces : List (List Byte), pieces.flatten = pending s.sendBuffer offset len ∧
        (∀ piece ∈ pieces, piece.length ≤ 1460) ∧
        (s.sendPieces turns offset).sent =
          s.sent ++ pieces.flatMap toBoth ++ toBoth s.regionStatus := by
  induction turns with
  | zero => intro offset s _ _ hturns; omega
  | succ turns ih =>
      intro offset s hlen hrest hturns
      rw [sendPieces, hlen]
      by_cases hwhole : 1460 ≤ len - offset
      · rw [if_pos hwhole]
        let piece := (List.range 1460).map fun i => s.sendBuffer (offset + i)
        obtain ⟨pieces, hflatten, hshort, hsent⟩ := ih (offset + 1460)
          ((s.sendFrom 0 offset 1460).sendFrom 1 offset 1460) hlen (by omega) (by omega)
        refine ⟨piece :: pieces, ?_, ?_, ?_⟩
        · rw [List.flatten_cons, hflatten, pending_split s.sendBuffer (k := 1460) (by omega)]
          rfl
        · rw [List.forall_mem_cons]
          exact ⟨by simp [piece], hshort⟩
        · rw [hsent, List.flatMap_cons]
          simp [sendFrom, toBoth, piece, regionStatus]
      · rw [if_neg hwhole, if_pos (by omega)]
        refine ⟨[pending s.sendBuffer offset len], by simp, ?_, ?_⟩
        · rw [List.forall_mem_singleton, pending, List.length_map, List.length_range]
          omega
        · rw [sendRegionStatus_sent]
          simp [sendFrom, toBoth, pending, regionStatus]

theorem sendPieces_enough (turns more : ℕ) :
    ∀ {offset : ℕ} {s : Nios}, strlen s.sendBuffer = len → (len - offset) / 1460 < turns →
      s.sendPieces (turns + more) offset = s.sendPieces turns offset := by
  induction turns with
  | zero => intro offset s _ hturns; omega
  | succ turns ih =>
      intro offset s hlen hturns
      rw [Nat.add_right_comm, sendPieces, sendPieces, hlen]
      by_cases hwhole : 1460 ≤ len - offset
      · rw [if_pos hwhole, if_pos hwhole]
        exact ih hlen (by omega)
      · rw [if_neg hwhole, if_neg hwhole]

/-- What `main` does with a finished frame of the payload `ws`. -/
structure Published (s : Nios) (ws : List Word) : Prop where
  buffer : (List.range (163 + 8 * ws.length)).map s.sickPosPacket.sendBuffer = telegram ws
  noNul : ∀ c ∈ telegram ws, c ≠ 0
  length : (telegram ws).length = 163 + 8 * ws.length
  fits : 163 + 8 * ws.length ≤ sendBufferSize
  strlen : strlen s.sickPosPacket.sendBuffer = 163 + 8 * ws.length
  pieces : ∃ pieces : List (List Byte), pieces.flatten = telegram ws ∧
    (∀ piece ∈ pieces, piece.length ≤ 1460) ∧
    s.publish.sent = s.sent ++ pieces.flatMap toBoth ++ toBoth s.regionStatus
  ends : ∀ turns, 6 ≤ turns → s.sickPosPacket.sendPieces turns 0 = s.sickPosPacket.sendPieces 6 0

/-- **The scan telegram.** A good distance frame with at most 811 words is published. -/
theorem published (h : HoldsDistance s ws closing) (hshort : ws.length ≤ targetNumber)
    (hgood : closing &&& 0xfffffff = 0xeeeeeee) : Published s.fpga2niosParse ws := by
  have hsize : targetNumber = 811 := rfl
  have hroom : sendBufferSize = 8448 := rfl
  obtain ⟨hfinish, htexts⟩ := parse_distance h hshort hgood
  obtain ⟨hbuffer, hstrlen⟩ := sickPosPacket_buffer htexts (by omega)
  refine ⟨hbuffer, fun c hc => telegram_ne_zero hc, telegram_length ws, by omega, hstrlen, ?_, ?_⟩
  · let finished : Nios := { s.fpga2niosParse with
      cycleData := { s.fpga2niosParse.cycleData with posFinish := false } }
    -- the length is odd, and so is what is left behind whole pieces
    obtain ⟨pieces, hflatten, hpieces, hsent⟩ :=
      sendPieces_sent 6 0 finished.sickPosPacket hstrlen (by omega) (by omega)
    refine ⟨pieces, ?_, hpieces, ?_⟩
    · rw [hflatten, ← hbuffer, pending, Nat.sub_zero]
      refine List.map_congr_left fun i _ => ?_
      rw [Nat.zero_add]
      rfl
    · have hpublish : s.fpga2niosParse.publish = finished.sickPosPacket.sendPieces 6 0 :=
        if_pos hfinish
      rw [hpublish, hsent]
      rfl
  · intro turns hturns
    obtain ⟨more, rfl⟩ := Nat.exists_eq_add_of_le hturns
    exact sendPieces_enough 6 more hstrlen (by omega)

theorem published_two : Published twoDistances.fpga2niosParse [0x00210005, 0x00ff1abc] :=
  have hholds : HoldsDistance twoDistances [0x00210005, 0x00ff1abc] 0x0eeeeeee :=
    holdsDistance_withDistances Nios.initial (by decide)
  published hholds (by decide) (by decide)

end Nios

end SingleScan
