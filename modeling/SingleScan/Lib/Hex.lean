import Mathlib.Order.Nat

/-!
# Hexadecimal text

The digits of a number as characters, their values, and a text of tokens with a separator in front of
each.
-/

namespace Hex

/-- The character of a digit. -/
def digit (n : BitVec 4) : BitVec 8 :=
  if n.toNat ≤ 9 then n.setWidth 8 + 0x30 else n.setWidth 8 + 0x37

/-- `0`, …, `9`, `A`, …, `F` and `a`, …, `f`. -/
def IsDigit (c : BitVec 8) : Prop :=
  (0x30 ≤ c.toNat ∧ c.toNat ≤ 0x39) ∨ (0x41 ≤ c.toNat ∧ c.toNat ≤ 0x46) ∨
    (0x61 ≤ c.toNat ∧ c.toNat ≤ 0x66)

instance (c : BitVec 8) : Decidable (IsDigit c) := inferInstanceAs (Decidable (_ ∨ _))

/-- The value of a digit. -/
def value (c : BitVec 8) : ℕ :=
  if c.toNat ≤ 0x39 then c.toNat - 0x30
  else if c.toNat ≤ 0x46 then c.toNat - 0x37 else c.toNat - 0x57

/-- The number that a token stands for. -/
def read (token : List (BitVec 8)) : ℕ := token.foldl (fun n c => n * 16 + value c) 0

theorem value_digit (n : BitVec 4) : value (digit n) = n.toNat := by
  revert n
  decide

theorem isDigit_digit (n : BitVec 4) : IsDigit (digit n) := by
  revert n
  decide

theorem ne_of_isDigit {c sep : BitVec 8} (h : IsDigit c) (hsep : ¬ IsDigit sep) : c ≠ sep := by
  rintro rfl
  exact hsep h

variable {α : Type} [DecidableEq α] {sep : α}

theorem splitOn_append_flatMap {token : List α} (htoken : sep ∉ token) (tokens : List (List α))
    (h : ∀ t ∈ tokens, sep ∉ t) :
    (token ++ tokens.flatMap (sep :: ·)).splitOn sep = token :: tokens := by
  induction tokens generalizing token with
  | nil => rw [List.flatMap_nil, List.append_nil, List.splitOn_eq_singleton htoken]
  | cons t tokens ih =>
      rw [List.flatMap_cons, List.cons_append, List.splitOn_append_cons_self_of_not_mem htoken,
        ih (h t List.mem_cons_self) fun t' ht' => h t' (List.mem_cons_of_mem t ht')]

/-- **Splitting** a text at its separators gives back its tokens. -/
theorem splitOn_flatMap (tokens : List (List α)) (h : ∀ t ∈ tokens, sep ∉ t) :
    (tokens.flatMap (sep :: ·)).splitOn sep = [] :: tokens :=
  splitOn_append_flatMap List.not_mem_nil tokens h

end Hex
