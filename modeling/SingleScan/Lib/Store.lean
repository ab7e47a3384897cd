import Mathlib.Data.List.Basic

/-!
# Writing a list into a memory

Element after element, the list goes to the addresses that a map gives for the indices. Where the map
tells the indices apart, the list is found again, and no other address changes.
-/

namespace SingleScan

namespace Store

variable {ι α : Type*} [DecidableEq ι]

/-- The list `dat` from index `n` on is written, in order. -/
def storeFrom (address : ℕ → ι) (n : ℕ) (dat : List α) (m : ι → α) : ι → α :=
  (dat.zipIdx n).foldl (fun m (x, k) => fun a => if a = address k then x else m a) m

variable {address : ℕ → ι} {n : ℕ} {dat : List α} {m : ι → α} {a : ι}

theorem storeFrom_cons (x : α) (dat : List α) :
    storeFrom address n (x :: dat) m =
      storeFrom address (n + 1) dat fun a => if a = address n then x else m a := rfl

theorem storeFrom_congr {address' : ℕ → ι} {n' : ℕ}
    (hsame : ∀ k < dat.length, address (n + k) = address' (n' + k)) :
    storeFrom address n dat m = storeFrom address' n' dat m := by
  induction dat generalizing n n' m with
  | nil => rfl
  | cons x dat ih =>
      have hfirst : address n = address' n' := hsame 0 (Nat.zero_lt_succ _)
      rw [storeFrom_cons, storeFrom_cons, hfirst]
      refine ih ?_
      intro k hk
      have hnext := hsame (k + 1) (Nat.succ_lt_succ hk)
      rwa [Nat.add_comm k 1, ← Nat.add_assoc, ← Nat.add_assoc] at hnext

theorem storeFrom_append (dat more : List α) :
    storeFrom address n (dat ++ more) m =
      storeFrom address (n + dat.length) more (storeFrom address n dat m) := by
  unfold storeFrom
  rw [List.zipIdx_append, List.foldl_append]

/-- The frame. -/
theorem storeFrom_of_ne (houtside : ∀ k < dat.length, address (n + k) ≠ a) :
    storeFrom address n dat m a = m a := by
  induction dat generalizing n m with
  | nil => rfl
  | cons x dat ih =>
      have hfirst : a ≠ address n := (houtside 0 (Nat.zero_lt_succ _)).symm
      rw [storeFrom_cons, ih, if_neg hfirst]
      intro k hk
      have hnext := houtside (k + 1) (Nat.succ_lt_succ hk)
      rwa [Nat.add_comm k 1, ← Nat.add_assoc] at hnext

/-- What is written at an address of its own is found there. -/
theorem storeFrom_get {k : ℕ} (hk : k < dat.length)
    (hinj : ∀ j < dat.length, address (n + j) = address (n + k) → j = k) :
    storeFrom address n dat m (address (n + k)) = dat.get ⟨k, hk⟩ := by
  induction dat generalizing n m k with
  | nil => cases hk
  | cons x dat ih =>
      rw [storeFrom_cons]
      cases k with
      | zero =>
          rw [storeFrom_of_ne]
          · exact if_pos rfl
          · intro j hj heq
            have hzero := hinj (j + 1) (Nat.succ_lt_succ hj)
            rw [Nat.add_comm j 1, ← Nat.add_assoc] at hzero
            exact absurd (hzero heq) (by omega)
      | succ k =>
          have hshift : n + (k + 1) = n + 1 + k := by omega
          rw [hshift]
          refine ih (Nat.lt_of_succ_lt_succ hk) ?_
          intro j hj heq
          have hsucc := hinj (j + 1) (Nat.succ_lt_succ hj)
          rw [Nat.add_comm j 1, ← Nat.add_assoc, hshift] at hsucc
          exact Nat.succ.inj ((Nat.add_comm 1 j).symm.trans (hsucc heq))

/-- What is written at an address is one of the elements, also if the address comes again. -/
theorem storeFrom_mem {k : ℕ} (hk : k < dat.length) :
    storeFrom address n dat m (address (n + k)) ∈ dat := by
  induction dat generalizing n m k with
  | nil => cases hk
  | cons x dat ih =>
      rw [storeFrom_cons, List.mem_cons]
      cases k with
      | zero =>
          rw [Nat.add_zero n]
          by_cases hagain : ∃ j < dat.length, address (n + 1 + j) = address n
          · obtain ⟨j, hj, heq⟩ := hagain
            have hmem := ih (n := n + 1) (m := fun a => if a = address n then x else m a) hj
            rw [heq] at hmem
            exact .inr hmem
          · left
            rw [storeFrom_of_ne fun j hj heq => hagain ⟨j, hj, heq⟩]
            exact if_pos rfl
      | succ k =>
          right
          rw [← Nat.add_assoc, Nat.add_right_comm]
          exact ih (Nat.lt_of_succ_lt_succ hk)

end Store

end SingleScan
