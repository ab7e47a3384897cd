import SingleScan.Lib.Hex
import SingleScan.SickProtocol

/-!
# The responses in hexadecimal digits

`string2hex` takes two characters for each byte but runs once for each character, so that it leaves its
string and writes twice the bytes; and it takes every digit for a decimal one.
-/

namespace SingleScan

/-- What the comment of `string2hex` promises for a string of `2 * m` digits: it looks at nothing behind the
string, writes `m` bytes and decodes two digits for each. -/
structure DecodesHex (s : CString) (m : ℕ) : Prop where
  reads : ∀ behind, string2hex { s with behind := behind } s.strlen = string2hex s s.strlen
  writes : (string2hex s s.strlen).length = m
  bytes : ∀ j < m, ((string2hex s s.strlen).getD j 0).toNat =
    Hex.value (s.byte (2 * j)) * 16 + Hex.value (s.byte (2 * j + 1))

theorem length_string2hex (s : CString) (len : ℕ) : (string2hex s len).length = len := by
  rw [string2hex, List.length_map, List.length_range]

theorem getD_string2hex (s : CString) {len j : ℕ} (hj : j < len) :
    (string2hex s len).getD j 0 =
      ((s.byte (2 * j) - 0x30) <<< 4) + (s.byte (2 * j + 1) - 0x30) := by
  rw [List.getD_eq_getElem?_getD, string2hex, List.getElem?_map, List.getElem?_range hj]
  rfl

/-- Taken for decimal, a letter is wrong in the high digit and in the low one. -/
theorem twoDigits_iff {c c' : Byte} (hc : Hex.IsDigit c) (hc' : Hex.IsDigit c') :
    (((c - 0x30) <<< 4) + (c' - 0x30)).toNat = Hex.value c * 16 + Hex.value c' ↔
      c.toNat ≤ 0x39 ∧ c'.toNat ≤ 0x39 := by
  have hhigh : ((c - 0x30) <<< 4).toNat = (c.toNat - 0x30) * 16 % 256 := by
    unfold Hex.IsDigit at hc
    rw [BitVec.toNat_shiftLeft, Nat.shiftLeft_eq, BitVec.toNat_sub_of_le (by
      rw [BitVec.le_def]; change 0x30 ≤ c.toNat; omega)]
    rfl
  have hlow : (c' - 0x30).toNat = c'.toNat - 0x30 := by
    unfold Hex.IsDigit at hc'
    rw [BitVec.toNat_sub_of_le (by rw [BitVec.le_def]; change 0x30 ≤ c'.toNat; omega)]
    rfl
  rw [BitVec.toNat_add, hhigh, hlow]
  unfold Hex.IsDigit at hc hc'
  unfold Hex.value
  obtain hc | hc | hc := hc <;> obtain hc' | hc' | hc' := hc' <;> split_ifs <;> omega

theorem byte_mem {s : CString} {i : ℕ} (hi : i < s.text.length) : s.byte i ∈ s.text := by
  rw [CString.byte, dif_pos hi]
  exact List.get_mem _ _

theorem byte_get {s : CString} {c : Byte} (hc : c ∈ s.text) :
    ∃ i, i < s.text.length ∧ s.byte i = c := by
  obtain ⟨i, rfl⟩ := List.get_of_mem hc
  exact ⟨i, i.isLt, by rw [CString.byte, dif_pos i.isLt]⟩

variable {s : CString} {m : ℕ}

theorem not_decodesHex (hlen : s.strlen = 2 * m) (hm : 0 < m) : ¬ DecodesHex s m := by
  intro h
  have hwrites := h.writes
  rw [length_string2hex, hlen] at hwrites
  omega

theorem decodesHex_zero (hlen : s.strlen = 0) : DecodesHex s 0 where
  reads behind := by rw [hlen]; rfl
  writes := by rw [length_string2hex, hlen]
  bytes j hj := absurd hj (Nat.not_lt_zero j)

/-- The `m` bytes in front are right for decimal digits only. -/
theorem decodes_front_iff (hlen : s.strlen = 2 * m) (hdigits : ∀ c ∈ s.text, Hex.IsDigit c) :
    (∀ j < m, ((string2hex s s.strlen).getD j 0).toNat =
        Hex.value (s.byte (2 * j)) * 16 + Hex.value (s.byte (2 * j + 1))) ↔
      ∀ c ∈ s.text, c.toNat ≤ 0x39 := by
  rw [CString.strlen] at hlen
  have hbyte : ∀ j < m,
      (((string2hex s s.strlen).getD j 0).toNat =
          Hex.value (s.byte (2 * j)) * 16 + Hex.value (s.byte (2 * j + 1)) ↔
        (s.byte (2 * j)).toNat ≤ 0x39 ∧ (s.byte (2 * j + 1)).toNat ≤ 0x39) := by
    intro j hj
    rw [getD_string2hex s (show j < s.strlen by rw [CString.strlen]; omega)]
    exact twoDigits_iff (hdigits _ (byte_mem (by omega))) (hdigits _ (byte_mem (by omega)))
  constructor
  · intro h c hc
    obtain ⟨i, hi, rfl⟩ := byte_get hc
    obtain ⟨heven, hodd⟩ := (hbyte (i / 2) (by omega)).mp (h (i / 2) (by omega))
    obtain hi2 | hi2 : 2 * (i / 2) = i ∨ 2 * (i / 2) + 1 = i := by omega
    · rwa [hi2] at heven
    · rwa [hi2] at hodd
  · intro h j hj
    exact (hbyte j hj).mpr ⟨h _ (byte_mem (by omega)), h _ (byte_mem (by omega))⟩

/-- **`string2hex`** decodes the empty string only; of the bytes it should write, it gets the ones of
decimal digits right. -/
theorem decodesHex_iff (s : CString) {m : ℕ} (hlen : s.strlen = 2 * m)
    (hdigits : ∀ c ∈ s.text, Hex.IsDigit c) :
    (DecodesHex s m ↔ m = 0) ∧
      ((∀ j < m, ((string2hex s s.strlen).getD j 0).toNat =
          Hex.value (s.byte (2 * j)) * 16 + Hex.value (s.byte (2 * j + 1))) ↔
        ∀ c ∈ s.text, c.toNat ≤ 0x39) := by
  refine ⟨⟨fun h => ?_, ?_⟩, decodes_front_iff hlen hdigits⟩
  · by_contra hm
    exact not_decodesHex hlen (Nat.pos_of_ne_zero hm) h
  · rintro rfl
    exact decodesHex_zero hlen

/-- The string of the comment, `"123456abcd"`. -/
def commentString : CString where
  text := [0x31, 0x32, 0x33, 0x34, 0x35, 0x36, 0x61, 0x62, 0x63, 0x64]
  noNul := by decide
  behind := literal []

theorem isDigit_commentString : ∀ c ∈ commentString.text, Hex.IsDigit c := by decide

/-- `"1234"`. -/
def digitString : CString where
  text := [0x31, 0x32, 0x33, 0x34]
  noNul := by decide
  behind := literal []

/-- The bytes of the comment's string are not right, and there are ten of them for five. Those of `"1234"`
are right, but two more follow. -/
theorem decodesHex_commentString :
    (¬ DecodesHex commentString 5 ∧
      ¬ ∀ j < 5, ((string2hex commentString commentString.strlen).getD j 0).toNat =
        Hex.value (commentString.byte (2 * j)) * 16 + Hex.value (commentString.byte (2 * j + 1))) ∧
    ¬ DecodesHex digitString 2 ∧
      ∀ j < 2, ((string2hex digitString digitString.strlen).getD j 0).toNat =
        Hex.value (digitString.byte (2 * j)) * 16 + Hex.value (digitString.byte (2 * j + 1)) := by
  obtain ⟨hdecodes, hfront⟩ := decodesHex_iff commentString (m := 5) rfl isDigit_commentString
  obtain ⟨hdecodes', hfront'⟩ := decodesHex_iff digitString (m := 2) rfl (by decide)
  rw [hdecodes, hfront, hdecodes', hfront']
  decide

/-- `string2hex` does not decode every string of digits. -/
theorem not_decodesHex_digits :
    ¬ ∀ (s : CString) (m : ℕ), s.strlen = 2 * m → (∀ c ∈ s.text, Hex.IsDigit c) → DecodesHex s m :=
  fun h => not_decodesHex (s := commentString) (m := 5) rfl (by decide)
    (h commentString 5 rfl isDigit_commentString)

end SingleScan
