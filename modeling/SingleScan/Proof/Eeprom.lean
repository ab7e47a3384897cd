import SingleScan.Eeprom
import SingleScan.Lib.Store

/-!
# Page writes

`eeprom_write_page` cuts a block into pieces of 256 bytes from its start on. The device rolls over at the
end of a page of its own, and the block select is that of the start, so that a block arrives if it stays in
one page, or if it starts a page and stays in one half of the device.
-/

namespace SingleScan

theorem toNat_pageAddress (addr : Word) (i j : ℕ) :
    (pageAddress addr i j).toNat =
      addr.toNat / 65536 % 2 * 65536 + (addr.toNat + i * 256) / 256 % 256 * 256 +
        (addr.toNat + j) % 256 := by
  have hpage : (addr + BitVec.ofNat 32 (i * 256)).toNat = (addr.toNat + i * 256) % 2 ^ 32 := by
    rw [BitVec.toNat_add, BitVec.toNat_ofNat, Nat.add_mod_mod]
  have hlow : ((addr + BitVec.ofNat 32 (i * 256)).setWidth 8 + BitVec.ofNat 8 j).toNat =
      (addr.toNat + j) % 256 := by
    rw [BitVec.toNat_add, BitVec.toNat_setWidth, hpage, BitVec.toNat_ofNat]
    omega
  unfold pageAddress eepromPageSize
  dsimp only
  rw [BitVec.toNat_append, BitVec.toNat_append, hlow, BitVec.extractLsb'_toNat,
    BitVec.extractLsb'_toNat, hpage, ← Nat.shiftLeft_add_eq_or_of_lt (Nat.mod_lt _ (by decide)),
    ← Nat.shiftLeft_add_eq_or_of_lt (Nat.mod_lt _ (by decide))]
  simp only [Nat.shiftLeft_eq, Nat.shiftRight_eq_div_pow]
  omega

/-- A byte that stays in its page and its block goes to the address it was meant for. -/
theorem pageAddress_eq (addr : Word) {k : ℕ} (hpage : addr.toNat % 256 + k % 256 < 256)
    (hblock : addr.toNat % 65536 + k < 65536) :
    pageAddress addr (k / eepromPageSize) (k % eepromPageSize) =
      addr.setWidth 17 + BitVec.ofNat 17 k := by
  apply BitVec.eq_of_toNat_eq
  rw [toNat_pageAddress, BitVec.toNat_add, BitVec.toNat_setWidth, BitVec.toNat_ofNat,
    eepromPageSize]
  omega

/-- The block is in one page, or it starts a page and is in one half of the device. -/
def InPages (addr : Word) (len : ℕ) : Prop :=
  addr.toNat % 256 + len ≤ 256 ∨ addr.toNat % 256 = 0 ∧ addr.toNat % 65536 + len ≤ 65536

instance (addr : Word) (len : ℕ) : Decidable (InPages addr len) := inferInstanceAs (Decidable (_ ∨ _))

/-- Such a block is written byte after byte. -/
theorem eepromWritePage_eq (rom : Eeprom) {addr : Word} {dat : List Byte}
    (h : InPages addr dat.length) :
    eepromWritePage rom addr dat =
      Store.storeFrom (fun k => addr.setWidth 17 + BitVec.ofNat 17 k) 0 dat rom := by
  show Store.storeFrom
    (fun k => pageAddress addr (k / eepromPageSize) (k % eepromPageSize)) 0 dat rom = _
  unfold InPages at h
  refine Store.storeFrom_congr ?_
  intro k hk
  rw [Nat.zero_add]
  exact pageAddress_eq addr (by omega) (by omega)

/-! ### Which blocks arrive -/

namespace Eeprom

/-- Outside the block the device is as before. -/
def Untouched (rom rom' : Eeprom) (addr : Word) (len : ℕ) : Prop :=
  ∀ a, (∀ i < len, a ≠ addr.setWidth 17 + BitVec.ofNat 17 i) → rom' a = rom a

/-- The block is in the device, and nothing else has changed. -/
structure Stores (rom rom' : Eeprom) (addr : Word) (dat : List Byte) : Prop where
  get : ∀ i (hi : i < dat.length), rom' (addr.setWidth 17 + BitVec.ofNat 17 i) = dat.get ⟨i, hi⟩
  frame : Untouched rom rom' addr dat.length

/-- `eeprom_sequential_read` finds the block, and nothing else has changed. -/
structure ReadsBack (rom rom' : Eeprom) (addr : Word) (dat : List Byte) : Prop where
  read : eepromSequentialRead rom' addr dat.length = some dat
  frame : Untouched rom rom' addr dat.length

variable {rom rom' : Eeprom} {addr : Word} {dat : List Byte}

theorem sequentialRead_eq_iff (hle : addr.toNat ≤ at24c1024MaxAddr) :
    eepromSequentialRead rom' addr dat.length = some dat ↔
      ∀ i (hi : i < dat.length),
        rom' (addr.setWidth 17 + BitVec.ofNat 17 i) = dat.get ⟨i, hi⟩ := by
  rw [eepromSequentialRead, if_neg (Nat.not_lt.2 hle), Option.some_inj]
  constructor
  · intro heq i hi
    have hget := congrArg (fun bytes => bytes[i]?) heq
    simp only [List.getElem?_map, List.getElem?_range hi, List.getElem?_eq_getElem hi] at hget
    exact Option.some_inj.1 hget
  · intro hget
    refine List.ext_getElem (by simp) fun i _ hi => ?_
    rw [List.getElem_map, List.getElem_range]
    exact hget i hi

theorem readsBack_iff :
    ReadsBack rom rom' addr dat ↔ Stores rom rom' addr dat ∧ addr.toNat ≤ at24c1024MaxAddr := by
  constructor
  · intro h
    have hle : addr.toNat ≤ at24c1024MaxAddr := by
      by_contra hgt
      have hread := h.read
      rw [eepromSequentialRead, if_pos (Nat.lt_of_not_le hgt)] at hread
      cases hread
    exact ⟨⟨(sequentialRead_eq_iff hle).1 h.read, h.frame⟩, hle⟩
  · rintro ⟨h, hle⟩
    exact ⟨(sequentialRead_eq_iff hle).2 h.get, h.frame⟩

end Eeprom

open Eeprom

variable {addr : Word} {len : ℕ}

theorem InPages.stores {dat : List Byte} (h : InPages addr dat.length) (hlen : dat.length < 2 ^ 16)
    (rom : Eeprom) : Stores rom (eepromWritePage rom addr dat) addr dat := by
  rw [eepromWritePage_eq rom h]
  constructor
  · intro i hi
    let address (k : ℕ) : BitVec 17 := addr.setWidth 17 + BitVec.ofNat 17 k
    have hget : Store.storeFrom address 0 dat rom (address (0 + i)) = dat.get ⟨i, hi⟩ := by
      refine Store.storeFrom_get hi fun j hj heq => ?_
      rw [Nat.zero_add, Nat.zero_add] at heq
      have hval := congrArg BitVec.toNat ((BitVec.add_right_inj _).1 heq)
      rw [BitVec.toNat_ofNat, BitVec.toNat_ofNat] at hval
      omega
    rwa [Nat.zero_add] at hget
  · intro a ha
    refine Store.storeFrom_of_ne fun k hk => ?_
    rw [Nat.zero_add]
    exact (ha k hk).symm

/-- Of any other block a byte goes to an address below it: the first one behind its page, or the first one
behind its half of the device. -/
theorem exists_misplaced (hlen : len < 2 ^ 16) (hfits : addr.toNat + len ≤ 2 ^ 17)
    (h : ¬ InPages addr len) :
    ∃ k < len, (pageAddress addr (k / eepromPageSize) (k % eepromPageSize)).toNat < addr.toNat := by
  unfold InPages at h
  by_cases hstart : addr.toNat % 256 = 0
  · refine ⟨65536 - addr.toNat, by omega, ?_⟩
    rw [toNat_pageAddress, eepromPageSize]
    omega
  · refine ⟨256 - addr.toNat % 256, by omega, ?_⟩
    rw [toNat_pageAddress, eepromPageSize]
    omega

/-- There it overwrites what was in the device. -/
theorem not_untouched_of_misplaced (hfits : addr.toNat + len ≤ 2 ^ 17) {k : ℕ} (hk : k < len)
    (hbelow : (pageAddress addr (k / eepromPageSize) (k % eepromPageSize)).toNat < addr.toNat) :
    ¬ Untouched (fun _ => 0) (eepromWritePage (fun _ => 0) addr (List.replicate len 1)) addr len := by
  intro hframe
  let address (k : ℕ) : BitVec 17 := pageAddress addr (k / eepromPageSize) (k % eepromPageSize)
  have houtside : ∀ i < len, address k ≠ addr.setWidth 17 + BitVec.ofNat 17 i := by
    intro i hi heq
    have hval := congrArg BitVec.toNat heq
    rw [BitVec.toNat_add, BitVec.toNat_setWidth, BitVec.toNat_ofNat] at hval
    change (pageAddress addr _ _).toNat = _ at hval
    omega
  have hwritten : eepromWritePage (fun _ => 0) addr (List.replicate len 1) (address k) = 1 := by
    have hmem : Store.storeFrom address 0 (List.replicate len 1) (fun _ => 0) (address (0 + k)) ∈
        List.replicate len (1 : Byte) :=
      Store.storeFrom_mem (by rwa [List.length_replicate])
    rw [Nat.zero_add] at hmem
    exact List.eq_of_mem_replicate hmem
  have hone : (1 : Byte) ≠ 0 := by decide
  exact hone (hwritten.symm.trans (hframe (address k) houtside))

/-- **`eeprom_write_page`** stores every block of a start and a length exactly if it is in one page, or
starts a page and is in one half of the device. `eeprom_sequential_read` finds it there as long as it may
begin at the start. -/
theorem eepromWritePage_iff (hlen : len < 2 ^ 16) (hfits : addr.toNat + len ≤ 2 ^ 17) :
    ((∀ (rom : Eeprom) (dat : List Byte), dat.length = len →
        Stores rom (eepromWritePage rom addr dat) addr dat) ↔ InPages addr len) ∧
      ((∀ (rom : Eeprom) (dat : List Byte), dat.length = len →
          ReadsBack rom (eepromWritePage rom addr dat) addr dat) ↔
        InPages addr len ∧ addr.toNat ≤ at24c1024MaxAddr) := by
  have hstores : (∀ (rom : Eeprom) (dat : List Byte), dat.length = len →
      Stores rom (eepromWritePage rom addr dat) addr dat) ↔ InPages addr len := by
    constructor
    · intro hall
      by_contra hnot
      obtain ⟨k, hk, hbelow⟩ := exists_misplaced hlen hfits hnot
      have hframe := (hall (fun _ => 0) (List.replicate len 1) List.length_replicate).frame
      rw [List.length_replicate] at hframe
      exact not_untouched_of_misplaced hfits hk hbelow hframe
    · rintro h rom dat rfl
      exact h.stores hlen rom
  refine ⟨hstores, ?_⟩
  rw [← hstores]
  constructor
  · intro hall
    refine ⟨fun rom dat hdat => (readsBack_iff.1 (hall rom dat hdat)).1, ?_⟩
    exact (readsBack_iff.1 (hall (fun _ => 0) (List.replicate len 1) List.length_replicate)).2
  · rintro ⟨hall, hle⟩ rom dat hdat
    exact readsBack_iff.2 ⟨hall rom dat hdat, hle⟩

/-- Up to the end of a page. -/
theorem eepromWritePage_three :
    Stores (fun _ => 0) (eepromWritePage (fun _ => 0) 0x10fd [1, 2, 3]) 0x10fd [1, 2, 3] ∧
      ReadsBack (fun _ => 0) (eepromWritePage (fun _ => 0) 0x10fd [1, 2, 3]) 0x10fd [1, 2, 3] := by
  have hiff := @eepromWritePage_iff 0x10fd 3 (by decide) (by decide)
  exact ⟨hiff.1.2 (by decide) _ _ rfl, hiff.2.2 (by decide) _ _ rfl⟩

/-- Two bytes from the last address of a page on: the second one comes to the beginning of the page. -/
theorem not_stores_two :
    ¬ ∀ (rom : Eeprom) (addr : Word) (dat : List Byte), dat.length < 2 ^ 16 →
      addr.toNat + dat.length ≤ 2 ^ 17 → Stores rom (eepromWritePage rom addr dat) addr dat := by
  intro hall
  have hstores := hall (fun _ => 0) 0xff [1, 2] (by decide) (by decide)
  have hzero := hstores.frame 0 (by decide)
  exact absurd hzero (by decide)

end SingleScan
