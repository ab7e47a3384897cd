import SingleScan.Proof.Eeprom
import SingleScan.Proof.Framing

/-!
# The region store

Where `eeprom_write_page` puts the bytes of a region, what is read back, and what else it overwrites.
-/

namespace SingleScan

open Pc2Dev

/-! ### A region in the EEPROM -/

/-- Where the region of an index begins. -/
def regionAddr (which : Byte) : Word := groupOffsetAddr + regionSpaceSize * which.setWidth 32

/-- Byte `k` of the region of an index. -/
def regionByteAddr (which : Byte) (k : ℕ) : BitVec 17 :=
  (regionAddr which).setWidth 17 + BitVec.ofNat 17 k

/-- The bytes that are saved for a region. -/
def regionBytes (region : Region) : List Byte :=
  bufferBytes region.buffer ++ (List.ofFn region.zenithSave).take zenithNumber

theorem length_flatMap_pair {α β : Type} (f g : α → β) (l : List α) :
    (l.flatMap fun x => [f x, g x]).length = l.length * 2 := by
  induction l with
  | nil => rfl
  | cons x l ih =>
      rw [List.flatMap_cons, List.length_append, ih, List.length_cons]
      show 2 + l.length * 2 = (l.length + 1) * 2
      omega

theorem getElem?_flatMap_pair {α β : Type} (f g : α → β) (l : List α) (i : ℕ) :
    (l.flatMap fun x => [f x, g x])[2 * i]? = l[i]?.map f ∧
      (l.flatMap fun x => [f x, g x])[2 * i + 1]? = l[i]?.map g := by
  induction l generalizing i with
  | nil => exact ⟨rfl, rfl⟩
  | cons x l ih =>
      cases i with
      | zero => exact ⟨rfl, rfl⟩
      | succ i => exact ih i

theorem length_bufferBytes (buffer : BoundaryTable) :
    (bufferBytes buffer).length = targetNumber * 2 := by
  rw [bufferBytes, length_flatMap_pair, List.length_ofFn]

theorem length_zenith (region : Region) :
    ((List.ofFn region.zenithSave).take zenithNumber).length = zenithNumber := by
  rw [List.length_take, List.length_ofFn]
  rfl

theorem length_regionBytes (region : Region) : (regionBytes region).length = 1725 := by
  rw [regionBytes, List.length_append, length_bufferBytes, length_zenith]
  rfl

theorem toNat_regionAddr (which : Byte) :
    (regionAddr which).toNat = 4096 + 2048 * which.toNat := by
  have hwhich : which.toNat < 256 := which.isLt
  have hwide : (which.setWidth 32).toNat = which.toNat := by
    rw [BitVec.toNat_setWidth]
    exact Nat.mod_eq_of_lt (by omega)
  rw [regionAddr, BitVec.toNat_add, BitVec.toNat_mul, hwide]
  show (4096 + 2048 * which.toNat % 2 ^ 32) % 2 ^ 32 = 4096 + 2048 * which.toNat
  omega

theorem toNat_regionByteAddr (which : Byte) (k : ℕ) :
    (regionByteAddr which k).toNat = (4096 + 2048 * which.toNat + k) % 131072 := by
  rw [regionByteAddr, BitVec.toNat_add, BitVec.toNat_setWidth, BitVec.toNat_ofNat, toNat_regionAddr]
  omega

theorem regionSave2eeprom_eq (rom : Eeprom) (region : Region) :
    regionSave2eeprom rom region =
      Store.storeFrom (regionByteAddr region.wrWhich) 0 (regionBytes region)
        (eepromWriteByte rom 3 (region.select.setWidth 8)) := by
  have haddr := toNat_regionAddr region.wrWhich
  have hsize : targetNumber * 2 = 1622 := rfl
  have hzenith : zenithNumber = 103 := rfl
  have hsecond : (regionAddr region.wrWhich + BitVec.ofNat 32 (targetNumber * 2)).toNat =
      4096 + 2048 * region.wrWhich.toNat + 1622 := by
    have hwhich : region.wrWhich.toNat < 256 := region.wrWhich.isLt
    rw [BitVec.toNat_add, haddr, hsize]
    show (4096 + 2048 * region.wrWhich.toNat + 1622) % 2 ^ 32 = _
    omega
  rw [regionBytes, Store.storeFrom_append]
  unfold regionSave2eeprom
  dsimp only
  rw [← regionAddr, eepromWritePage_eq, eepromWritePage_eq]
  · rw [Nat.zero_add]
    refine (Store.storeFrom_congr ?_).trans
      (congrArg (Store.storeFrom _ _ _) (Store.storeFrom_congr ?_))
    · intro k hk
      rw [Nat.zero_add, length_bufferBytes]
      apply BitVec.eq_of_toNat_eq
      rw [toNat_regionByteAddr, BitVec.toNat_add, BitVec.toNat_setWidth, BitVec.toNat_ofNat,
        hsecond]
      omega
    · intro k hk
      rfl
  · rw [InPages, haddr, length_bufferBytes]
    omega
  · rw [InPages, hsecond, length_zenith]
    omega

theorem regionByteAddr_injective (which : Byte) {j k : ℕ} (hj : j < 1725) (hk : k < 1725)
    (heq : regionByteAddr which j = regionByteAddr which k) : j = k := by
  have hval := congrArg BitVec.toNat heq
  rw [toNat_regionByteAddr, toNat_regionByteAddr] at hval
  omega

theorem regionSave2eeprom_get (rom : Eeprom) (region : Region) {k : ℕ} (hk : k < 1725) :
    regionSave2eeprom rom region (regionByteAddr region.wrWhich k) =
      literal (regionBytes region) k := by
  have hlength := length_regionBytes region
  have hget : Store.storeFrom (regionByteAddr region.wrWhich) 0 (regionBytes region)
      (eepromWriteByte rom 3 (region.select.setWidth 8)) (regionByteAddr region.wrWhich (0 + k)) =
      (regionBytes region).get ⟨k, by omega⟩ := by
    refine Store.storeFrom_get (by omega) ?_
    intro j hj heq
    rw [Nat.zero_add, Nat.zero_add] at heq
    exact regionByteAddr_injective region.wrWhich (by omega) hk heq
  rw [Nat.zero_add] at hget
  rw [regionSave2eeprom_eq, hget]
  simp [literal, hlength, hk]

theorem regionSave2eeprom_of_ne (rom : Eeprom) (region : Region) {a : BitVec 17} (hselect : a ≠ 3)
    (houtside : ∀ k < 1725, regionByteAddr region.wrWhich k ≠ a) :
    regionSave2eeprom rom region a = rom a := by
  rw [regionSave2eeprom_eq, Store.storeFrom_of_ne]
  · exact if_neg hselect
  · intro k hk
    rw [length_regionBytes] at hk
    rw [Nat.zero_add]
    exact houtside k hk

/-! ### The packets -/

namespace Device

variable {φ : Type} (d : Device φ) (driver : FlashDriver φ) (socket : ℕ) (buf : Bytes)

theorem execute_load (hcommand : d.pc2nios.command = pcLoadRegionData) (para : Word) :
    d.execute driver socket buf para = d.loadRegionData buf := by
  unfold execute
  dsimp only
  rw [if_neg (by rw [hcommand]; decide), if_neg (by rw [hcommand]; decide), if_pos hcommand]

theorem execute_request (hcommand : d.pc2nios.command = pcReqRegionData) (para : Word) :
    d.execute driver socket buf para = d.reqRegionData socket para := by
  unfold execute
  dsimp only
  rw [if_neg (by rw [hcommand]; decide), if_neg (by rw [hcommand]; decide),
    if_neg (by rw [hcommand]; decide), if_pos hcommand]

theorem serve_load (hcommand : commandOf buf = pcLoadRegionData) :
    d.serve driver socket buf = (d.readHeader buf).loadRegionData buf := by
  unfold serve
  dsimp only
  rw [if_neg (by rw [hcommand]; decide)]
  exact execute_load _ driver socket buf hcommand _

theorem serve_request (hcommand : commandOf buf = pcReqRegionData) :
    d.serve driver socket buf = (d.readHeader buf).reqRegionData socket (paraOf buf) := by
  unfold serve
  dsimp only
  rw [if_neg (by rw [hcommand]; decide)]
  exact execute_request _ driver socket buf hcommand _

/-- The region that a `PC_LOAD_REGION_DATA` packet carries. -/
def loadedRegion (region : Region) (buf : Bytes) : Region :=
  { region with
    wrWhich := buf 8
    buffer := fun i => buf (2 * i + 9) ++ buf (2 * i + 1 + 9)
    zenithSave := fun i => if i.val < zenithNumber then buf (1631 + i) else region.zenithSave i }

theorem loadRegionData_eeprom :
    (d.loadRegionData buf).eeprom =
      regionSave2eeprom d.eeprom (loadedRegion d.alarmRegion buf) := by
  unfold loadRegionData
  dsimp only
  split_ifs <;> rfl

theorem high_append (high low : Byte) : ((high ++ low) >>> 8).setWidth 8 = high := by
  have hlow : low.toNat < 2 ^ 8 := low.isLt
  have hhigh : high.toNat < 2 ^ 8 := high.isLt
  apply BitVec.eq_of_toNat_eq
  rw [BitVec.toNat_setWidth, BitVec.toNat_ushiftRight, BitVec.toNat_append,
    ← Nat.shiftLeft_add_eq_or_of_lt hlow, Nat.shiftLeft_eq, Nat.shiftRight_eq_div_pow]
  omega

/-- Byte `k` of the region that a `PC_LOAD_REGION_DATA` packet stores: the bytes of a boundary are
swapped. -/
def storedByte (buf : Bytes) (k : ℕ) : Byte :=
  if k < targetNumber * 2 then if k % 2 = 0 then buf (k + 10) else buf (k + 8) else buf (k + 9)

theorem literal_regionBytes (region : Region) {k : ℕ} (hk : k < 1725) :
    literal (regionBytes (loadedRegion region buf)) k = storedByte buf k := by
  have hsize : targetNumber = 811 := rfl
  have hpair := getElem?_flatMap_pair (fun w : BitVec 16 => w.setWidth 8)
    (fun w : BitVec 16 => (w >>> 8).setWidth 8) (List.ofFn (loadedRegion region buf).buffer)
  have hboundary : ∀ i, (hi : i < targetNumber) →
      (List.ofFn (loadedRegion region buf).buffer)[i]? =
        some (buf (2 * i + 9) ++ buf (2 * i + 1 + 9)) := by
    intro i hi
    rw [List.getElem?_ofFn, dif_pos hi]
    rfl
  unfold regionBytes storedByte
  by_cases hinside : k < targetNumber * 2
  · rw [if_pos hinside, literal_append_left (by rw [length_bufferBytes]; exact hinside)]
    unfold literal bufferBytes
    rw [List.getD_eq_getElem?_getD]
    by_cases heven : k % 2 = 0
    · obtain ⟨i, rfl⟩ : ∃ i, k = 2 * i := ⟨k / 2, by omega⟩
      rw [if_pos heven, (hpair i).1, hboundary i (by omega)]
      show (buf (2 * i + 9) ++ buf (2 * i + 1 + 9)).setWidth 8 = buf (2 * i + 1 + 9)
      exact BitVec.setWidth_append_eq_right
    · obtain ⟨i, rfl⟩ : ∃ i, k = 2 * i + 1 := ⟨k / 2, by omega⟩
      rw [if_neg heven, (hpair i).2, hboundary i (by omega)]
      exact high_append _ _
  · obtain ⟨j, rfl⟩ : ∃ j, k = targetNumber * 2 + j := ⟨k - targetNumber * 2, by omega⟩
    have hj : j < zenithNumber := by
      have hzenith : zenithNumber = 103 := rfl
      omega
    rw [if_neg hinside, ← length_bufferBytes (loadedRegion region buf).buffer, literal_append_right,
      length_bufferBytes]
    unfold literal
    have hzenith : j < 150 := Nat.lt_trans hj (by decide)
    rw [List.getD_eq_getElem?_getD, List.getElem?_take, if_pos hj, List.getElem?_ofFn, dif_pos hzenith]
    show (if j < zenithNumber then buf (1631 + j) else _) = _
    rw [if_pos hj]
    exact congrArg buf (by omega)

theorem serve_load_get (hcommand : commandOf buf = pcLoadRegionData) {k : ℕ} (hk : k < 1725) :
    (d.serve driver socket buf).eeprom (regionByteAddr (buf 8) k) = storedByte buf k := by
  rw [d.serve_load driver socket buf hcommand, loadRegionData_eeprom]
  exact (regionSave2eeprom_get _ (loadedRegion _ buf) hk).trans (literal_regionBytes buf _ hk)

theorem serve_load_of_ne (hcommand : commandOf buf = pcLoadRegionData) {a : BitVec 17}
    (hselect : a ≠ 3) (houtside : ∀ k < 1725, regionByteAddr (buf 8) k ≠ a) :
    (d.serve driver socket buf).eeprom a = d.eeprom a := by
  rw [d.serve_load driver socket buf hcommand, loadRegionData_eeprom]
  exact regionSave2eeprom_of_ne _ (loadedRegion _ buf) hselect houtside

end Device

/-! ### The parameter block -/

/-- Byte `i` of the parameters in the EEPROM. -/
def sysParaByteAddr (i : ℕ) : BitVec 17 := sysParaAddr.setWidth 17 + BitVec.ofNat 17 i

theorem toNat_sysParaByteAddr {i : ℕ} (hi : i < sizeofSysPara) :
    (sysParaByteAddr i).toNat = 1024 + i := by
  have hsize : sizeofSysPara = 308 := rfl
  rw [sysParaByteAddr, BitVec.toNat_add, BitVec.toNat_ofNat]
  show (1024 + i % 2 ^ 17) % 2 ^ 17 = 1024 + i
  omega

/-- The region of an index lies over the parameters only where the address wraps to 0. -/
theorem regionByteAddr_eq_sysPara_iff (which : Byte) {k i : ℕ} (hk : k < 1725)
    (hi : i < sizeofSysPara) :
    regionByteAddr which k = sysParaByteAddr i ↔ which.toNat % 64 = 62 ∧ k = 1024 + i := by
  have hsize : sizeofSysPara = 308 := rfl
  have hval : regionByteAddr which k = sysParaByteAddr i ↔
      (4096 + 2048 * which.toNat + k) % 131072 = 1024 + i := by
    rw [← BitVec.toNat_inj, toNat_regionByteAddr, toNat_sysParaByteAddr hi]
  rw [hval]
  omega

theorem sysParaByteAddr_ne_select {i : ℕ} (hi : i < sizeofSysPara) : sysParaByteAddr i ≠ 3 := by
  intro heq
  have hval := congrArg BitVec.toNat heq
  rw [toNat_sysParaByteAddr hi] at hval
  have hthree : (3 : BitVec 17).toNat = 3 := rfl
  omega

/-- The region of such an index is written over the parameters. -/
theorem serve_load_overwrites {φ : Type} (d : Device φ) (driver : FlashDriver φ) (socket : ℕ)
    (buf : Bytes) (hcommand : commandOf buf = pcLoadRegionData) (hwrap : (buf 8).toNat % 64 = 62)
    {i : ℕ} (hi : i < sizeofSysPara) :
    (d.serve driver socket buf).eeprom (sysParaByteAddr i) = Device.storedByte buf (1024 + i) := by
  have hsize : sizeofSysPara = 308 := rfl
  rw [← (regionByteAddr_eq_sysPara_iff (buf 8) (by omega) hi).mpr ⟨hwrap, rfl⟩]
  exact d.serve_load_get driver socket buf hcommand (by omega)

/-- **The parameters below a region.** -/
theorem parameters_kept_iff {φ : Type} (d : Device φ) (driver : FlashDriver φ) (socket : ℕ)
    (buf : Bytes) (hcommand : commandOf buf = pcLoadRegionData) :
    (∀ i < sizeofSysPara,
        (d.serve driver socket buf).eeprom (sysParaByteAddr i) = d.eeprom (sysParaByteAddr i)) ↔
      ((buf 8).toNat % 64 ≠ 62 ∨
        ∀ i < sizeofSysPara, Device.storedByte buf (1024 + i) = d.eeprom (sysParaByteAddr i)) := by
  by_cases hwrap : (buf 8).toNat % 64 = 62
  · constructor
    · intro hkept
      right
      intro i hi
      rw [← serve_load_overwrites d driver socket buf hcommand hwrap hi, hkept i hi]
    · rintro (hne | hsame) i hi
      · exact absurd hwrap hne
      · rw [serve_load_overwrites d driver socket buf hcommand hwrap hi, hsame i hi]
  · constructor
    · intro _
      exact Or.inl hwrap
    · intro _ i hi
      refine d.serve_load_of_ne driver socket buf hcommand (sysParaByteAddr_ne_select hi) ?_
      intro k hk heq
      exact hwrap ((regionByteAddr_eq_sysPara_iff (buf 8) hk hi).mp heq).1

/-- A `PC_LOAD_REGION_DATA` packet for an index, every boundary and zenith byte the same. -/
def loadPacket (which fill : Byte) : Bytes := fun i =>
  ([0x12, 0x34, 0x40, 0x03, 0x00, 0x00, 0x06, 0xbe, which] : List Byte).getD i fill

theorem parameters_kept_61 :
    commandOf (loadPacket 61 1) = pcLoadRegionData ∧
      ∀ i < sizeofSysPara,
        (zeroedDevice.serve flashOfBytes 0 (loadPacket 61 1)).eeprom (sysParaByteAddr i) =
          zeroedDevice.eeprom (sysParaByteAddr i) := by
  have hcommand : commandOf (loadPacket 61 1) = pcLoadRegionData := by decide
  exact ⟨hcommand, (parameters_kept_iff zeroedDevice flashOfBytes 0 (loadPacket 61 1) hcommand).mpr
    (.inl (by decide))⟩

/-- Index 62 overwrites them. -/
theorem parameters_lost_62 :
    ¬ ∀ i < sizeofSysPara,
      (zeroedDevice.serve flashOfBytes 0 (loadPacket 62 1)).eeprom (sysParaByteAddr i) =
        zeroedDevice.eeprom (sysParaByteAddr i) := by
  intro hkept
  have hfirst := hkept 0 (by decide)
  rw [serve_load_overwrites zeroedDevice flashOfBytes 0 (loadPacket 62 1) (by decide) (by decide)
    (by decide)] at hfirst
  exact absurd hfirst (by decide)

/-! ### The way back -/

namespace Device

variable {φ : Type} (d : Device φ) (driver : FlashDriver φ) (socket : ℕ) (buf : Bytes)

theorem swapBytes_storedByte {sent : Bytes} (hsent : ∀ k < 1725, sent (9 + k) = storedByte buf k)
    {k : ℕ} (hk : k < 1725) : swapBytes sent (9 + k) = buf (9 + k) := by
  have hsize : targetNumber = 811 := rfl
  have hindex : 9 + k - 9 = k := by omega
  unfold swapBytes
  rw [hindex]
  by_cases hinside : k < targetNumber * 2
  · rw [if_pos ⟨by omega, by omega⟩]
    by_cases heven : k % 2 = 0
    · have hodd : ¬ (k + 1) % 2 = 0 := by omega
      rw [if_pos heven, Nat.add_assoc, hsent (k + 1) (by omega), storedByte, if_pos (by omega),
        if_neg hodd]
      exact congrArg buf (by omega)
    · obtain ⟨j, rfl⟩ : ∃ j, k = j + 1 := ⟨k - 1, by omega⟩
      have heven' : j % 2 = 0 := by omega
      have hprevious : 9 + (j + 1) - 1 = 9 + j := by omega
      rw [if_neg heven, hprevious, hsent j (by omega), storedByte, if_pos (by omega),
        if_pos heven']
      exact congrArg buf (by omega)
  · rw [if_neg (by omega), hsent k hk, storedByte, if_neg hinside]
    exact congrArg buf (by omega)

/-- The reply to `PC_REQ_REGION_DATA` carries the stored bytes, each boundary swapped back. -/
theorem pc2devPacket_region (hcommand : d.nios2pc.command = niosUpRegionData) {bytes : List Byte}
    (hread : eepromSequentialRead d.eeprom
      (groupOffsetAddr + d.alarmRegion.rdWhich.setWidth 32 * regionSpaceSize)
      (targetNumber * 2 + 1 + 102) = some bytes)
    (hlength : bytes.length = 1725) (hbytes : ∀ k < 1725, bytes.getD k 0 = storedByte buf k) :
    d.pc2devPacket.2 = 1738 ∧ d.pc2devPacket.1.nios.sendBuffer 8 = d.alarmRegion.rdWhich ∧
      ∀ k < 1725, d.pc2devPacket.1.nios.sendBuffer (9 + k) = buf (9 + k) := by
  have halarm : d.nios2pc.command ≠ niosUpAlarmRegion := by
    rw [hcommand]
    decide
  unfold pc2devPacket
  extract_lets garbage dataLen d₁ d₂ d₃ command d₄ d₅ checksum₅ offsetAddr d₆ d₇ nios d₈ bufLen checksum
  rw [if_neg (show ¬ command = niosUpAlarmRegion from halarm),
    if_pos (show command = niosUpRegionData from hcommand)]
  have hregion : d₇.nios.sendBuffer = memcpy d₆.nios.sendBuffer 9 bytes := by
    show memcpy d₆.nios.sendBuffer 9 ((eepromSequentialRead d₆.eeprom offsetAddr _).getD []) = _
    rw [show eepromSequentialRead d₆.eeprom offsetAddr (targetNumber * 2 + 1 + 102) = some bytes
      from hread]
    rfl
  have hkeep : ∀ k < 1735, (d₈.fill (bufLen + 1) [0x00, 0x00, 0x00, checksum]).nios.sendBuffer k =
      swapBytes d₇.nios.sendBuffer k := by
    intro k hk
    show memcpy (swapBytes d₇.nios.sendBuffer) (bufLen + 1) _ k = _
    rw [memcpy, if_neg]
    show ¬ 9 + (targetNumber * 2 + 1 + 102) + 1 ≤ k
    have hsize : targetNumber = 811 := rfl
    omega
  refine ⟨rfl, ?_, ?_⟩
  · rw [hkeep 8 (by omega), swapBytes, if_neg (by omega), hregion, memcpy, if_neg (by omega)]
    rfl
  · intro k hk
    rw [hkeep (9 + k) (by omega)]
    refine swapBytes_storedByte buf ?_ hk
    intro j hj
    have hindex : 9 + j - 9 = j := by omega
    rw [hregion, memcpy, if_pos (by omega), hindex, ← hbytes j hj]
    simp [hlength, hj]

theorem sequentialRead_region (rom : Eeprom) {which : Byte} (hwhich : which.toNat ≤ 47) (len : ℕ)
    (hstored : ∀ k < 1725, rom (regionByteAddr which k) = storedByte buf k) (hlen : len ≤ 1725) :
    ∃ bytes, eepromSequentialRead rom (regionAddr which) len = some bytes ∧ bytes.length = len ∧
      ∀ k < len, bytes.getD k 0 = storedByte buf k := by
  refine ⟨(List.range len).map fun i => rom ((regionAddr which).setWidth 17 + BitVec.ofNat 17 i), ?_,
    by rw [List.length_map, List.length_range], ?_⟩
  · have hmax : at24c1024MaxAddr = 120000 := rfl
    rw [eepromSequentialRead, if_neg]
    rw [toNat_regionAddr, hmax]
    omega
  · intro k hk
    rw [← hstored k (by omega)]
    simp [hk, regionByteAddr]

/-- The answer to `PC_REQ_REGION_DATA`, in every state in which the region is stored. -/
theorem serve_request_sent {request : Bytes} {which : Byte} (hwhich : which.toNat ≤ 47)
    (hstored : ∀ k < 1725, d.eeprom (regionByteAddr which k) = storedByte buf k)
    (hcommand : commandOf request = pcReqRegionData)
    (hpara : paraOf request = which.setWidth 32) :
    ∃ bytes, (d.serve driver socket request).nios.sent = d.nios.sent ++ [⟨socket, bytes⟩] ∧
      bytes.length = 1738 ∧ bytes.getD 8 0 = which ∧
      ∀ k < 1725, bytes.getD (9 + k) 0 = buf (9 + k) := by
  let asked : Device φ :=
    { d.readHeader request with
      alarmRegion := { d.alarmRegion with rdWhich := (paraOf request).setWidth 8 }
      nios2pc :=
        { d.nios2pc with
          command := niosUpRegionData
          dataLen := BitVec.ofNat 32 (1 + targetNumber * 2 + zenithNumber) } }
  have hrdWhich : asked.alarmRegion.rdWhich = which := by
    show (paraOf request).setWidth 8 = which
    rw [hpara]
    exact BitVec.setWidth_setWidth_of_le which (by omega)
  obtain ⟨bytes, hread, hlength, hbytes⟩ := sequentialRead_region buf d.eeprom hwhich
    (targetNumber * 2 + 1 + 102) hstored (by decide)
  have hreadAsked : eepromSequentialRead asked.eeprom
      (groupOffsetAddr + asked.alarmRegion.rdWhich.setWidth 32 * regionSpaceSize)
      (targetNumber * 2 + 1 + 102) = some bytes := by
    rw [hrdWhich, BitVec.mul_comm]
    exact hread
  obtain ⟨hlen, hindex, hpayload⟩ := asked.pc2devPacket_region buf rfl hreadAsked hlength hbytes
  obtain ⟨sendBuffer, stack, hbuffered⟩ := pc2devPacket_buffered asked
  refine ⟨(List.range 1738).map asked.pc2devPacket.1.nios.sendBuffer, ?_,
    by rw [List.length_map, List.length_range], ?_, ?_⟩
  · rw [d.serve_request driver socket request hcommand]
    show asked.pc2devPacket.1.nios.sent ++
        [⟨socket, (List.range asked.pc2devPacket.2).map asked.pc2devPacket.1.nios.sendBuffer⟩] = _
    rw [hlen, hbuffered]
    rfl
  · rw [← hrdWhich, ← hindex]
    simp
  · intro k hk
    rw [← hpayload k hk]
    have hinside : 9 + k < 1738 := by omega
    simp [hinside]

/-- The boundaries in a `PC_LOAD_REGION_DATA` packet. -/
def boundaries (buf : Bytes) : BoundaryTable := fun i => buf (2 * i + 9) ++ buf (2 * i + 1 + 9)

/-- `region_read_from_rom` loads the boundaries of the packet, and sends them to the layer. -/
theorem regionReadFromRom_stored {which : Byte} (hwhich : which.toNat ≤ 47)
    (hstored : ∀ k < 1725, d.eeprom (regionByteAddr which k) = storedByte buf k) :
    (d.regionReadFromRom (which.setWidth 32)).alarmRegion.buffer = boundaries buf ∧
      (d.regionReadFromRom (which.setWidth 32)).fpga =
        d.fpga ++ regionSave2fpga (boundaries buf)
          ⟨(which.setWidth 32).toNat % 3, Nat.mod_lt _ (by decide)⟩ := by
  have hsize : targetNumber = 811 := rfl
  obtain ⟨bytes, hread, hlength, hbytes⟩ := sequentialRead_region buf d.eeprom hwhich
    (targetNumber * 2) hstored (by omega)
  have htable : bufferOfBytes bytes = boundaries buf := by
    funext i
    have hi : i.val < 811 := i.isLt
    rw [bufferOfBytes, hbytes (2 * i + 1) (by omega), hbytes (2 * i) (by omega), storedByte,
      storedByte, if_pos (by omega), if_neg (by omega), if_pos (by omega), if_pos (by omega)]
    rfl
  have haddr : groupOffsetAddr + which.setWidth 32 * regionSpaceSize = regionAddr which := by
    rw [BitVec.mul_comm]
    rfl
  rw [← htable]
  unfold regionReadFromRom SingleScan.regionReadFromRom
  dsimp only
  rw [haddr, hread]
  exact ⟨rfl, rfl⟩

end Device

theorem regionByteAddr_ne {which which' : Byte} (hwhich : which.toNat ≤ 47)
    (hwhich' : which'.toNat ≤ 47) (hne : which' ≠ which) {j k : ℕ} (hj : j < 1725) (hk : k < 2048) :
    regionByteAddr which j ≠ regionByteAddr which' k := by
  intro heq
  have hval := congrArg BitVec.toNat heq
  rw [toNat_regionByteAddr, toNat_regionByteAddr] at hval
  exact hne (BitVec.eq_of_toNat_eq (by omega))

/-- **The region store.** What `PC_LOAD_REGION_DATA` stores for an index up to 47 comes back to the PC
and to the FPGA, and no other region and no parameter changes. -/
theorem region_round_trip {φ : Type} (d : Device φ) (driver : FlashDriver φ) (socket : ℕ)
    (load request : Bytes) (hwhich : (load 8).toNat ≤ 47)
    (hload : commandOf load = pcLoadRegionData) (hrequest : commandOf request = pcReqRegionData)
    (hpara : paraOf request = (load 8).setWidth 32) :
    (∃ bytes,
        ((d.serve driver socket load).serve driver socket request).nios.sent =
          (d.serve driver socket load).nios.sent ++ [⟨socket, bytes⟩] ∧
        bytes.length = 1738 ∧ bytes.getD 8 0 = load 8 ∧
        ∀ k < 1725, bytes.getD (9 + k) 0 = load (9 + k)) ∧
      (((d.serve driver socket load).regionReadFromRom ((load 8).setWidth 32)).alarmRegion.buffer =
          Device.boundaries load ∧
        ((d.serve driver socket load).regionReadFromRom ((load 8).setWidth 32)).fpga =
          (d.serve driver socket load).fpga ++ regionSave2fpga (Device.boundaries load)
            ⟨((load 8).setWidth 32).toNat % 3, Nat.mod_lt _ (by decide)⟩) ∧
      (∀ which : Byte, which.toNat ≤ 47 → which ≠ load 8 → ∀ k < 2048,
        (d.serve driver socket load).eeprom (regionByteAddr which k) =
          d.eeprom (regionByteAddr which k)) ∧
      ∀ i < sizeofSysPara,
        (d.serve driver socket load).eeprom (sysParaByteAddr i) = d.eeprom (sysParaByteAddr i) := by
  have hstored : ∀ k < 1725, (d.serve driver socket load).eeprom (regionByteAddr (load 8) k) =
      Device.storedByte load k := fun k hk => d.serve_load_get driver socket load hload hk
  refine ⟨Device.serve_request_sent _ driver socket load hwhich hstored hrequest hpara,
    Device.regionReadFromRom_stored _ load hwhich hstored, ?_, ?_⟩
  · intro which hother hne k hk
    refine d.serve_load_of_ne driver socket load hload ?_ ?_
    · intro heq
      have hval := congrArg BitVec.toNat heq
      rw [toNat_regionByteAddr] at hval
      have hthree : (3 : BitVec 17).toNat = 3 := rfl
      omega
    · exact fun j hj => regionByteAddr_ne hwhich hother hne hj hk
  · intro i hi
    refine d.serve_load_of_ne driver socket load hload (sysParaByteAddr_ne_select hi) ?_
    intro k hk heq
    have hwrap := ((regionByteAddr_eq_sysPara_iff (load 8) hk hi).mp heq).1
    omega

/-- `PC_REQ_REGION_DATA` for an index. -/
def requestPacket (which : Byte) : Bytes := fun i =>
  ([0x12, 0x34, 0x40, 0x04, 0x00, 0x00, 0x00, 0x00, 0x00, 0x00, 0x00, which] : List Byte).getD i 0

theorem region_round_trip_47 :
    ∃ bytes,
      ((zeroedDevice.serve flashOfBytes 0 (loadPacket 47 1)).serve flashOfBytes 0
          (requestPacket 47)).nios.sent =
        (zeroedDevice.serve flashOfBytes 0 (loadPacket 47 1)).nios.sent ++ [⟨0, bytes⟩] ∧
      bytes.length = 1738 ∧ bytes.getD 8 0 = 47 ∧
      ∀ k < 1725, bytes.getD (9 + k) 0 = loadPacket 47 1 (9 + k) :=
  (region_round_trip zeroedDevice flashOfBytes 0 (loadPacket 47 1) (requestPacket 47) (by decide)
    (by decide) (by decide) (by decide)).1

end SingleScan
