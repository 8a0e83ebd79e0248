import Mathlib

/-!
# Sums in one's complement

A checksum of 16-bit words is their sum, with what goes over 16 bits added in again until nothing
does.  `fold` is that loop.  It keeps the sum modulo 2¹⁶ - 1 (`fold_mod`), and of the two
representatives of zero it takes `0xFFFF` unless the sum was zero itself (`fold_pos`).  So the sum
of some words and the complement of their folded sum folds to `0xFFFF`, which is what a receiver
checks (`fold_add_compl`).
-/

namespace OnesComplement

/-- `while (sum >> 16) sum = (sum & 0xFFFF) + (sum >> 16)`; the first argument bounds the rounds. -/
def foldLoop : ℕ → ℕ → ℕ
  | 0, sum => sum
  | n + 1, sum => if sum / 2 ^ 16 = 0 then sum else foldLoop n (sum % 2 ^ 16 + sum / 2 ^ 16)

def fold (sum : ℕ) : ℕ := foldLoop sum sum

theorem foldLoop_lt {n sum : ℕ} (h : sum ≤ n) : foldLoop n sum < 2 ^ 16 := by
  induction n generalizing sum with
  | zero =>
    rw [foldLoop]
    omega
  | succ n ih =>
    rw [foldLoop]
    by_cases hlow : sum / 2 ^ 16 = 0
    · rw [if_pos hlow]
      omega
    · rw [if_neg hlow]
      exact ih (by omega)

theorem foldLoop_mod (n sum : ℕ) : foldLoop n sum % 65535 = sum % 65535 := by
  induction n generalizing sum with
  | zero => rfl
  | succ n ih =>
    rw [foldLoop]
    by_cases hlow : sum / 2 ^ 16 = 0
    · rw [if_pos hlow]
    · rw [if_neg hlow, ih]
      omega

theorem foldLoop_pos (n : ℕ) {sum : ℕ} (h : 0 < sum) : 0 < foldLoop n sum := by
  induction n generalizing sum with
  | zero => exact h
  | succ n ih =>
    rw [foldLoop]
    by_cases hlow : sum / 2 ^ 16 = 0
    · rwa [if_pos hlow]
    · rw [if_neg hlow]
      exact ih (by omega)

theorem fold_lt (sum : ℕ) : fold sum < 2 ^ 16 := foldLoop_lt le_rfl

theorem fold_mod (sum : ℕ) : fold sum % 65535 = sum % 65535 := foldLoop_mod sum sum

theorem fold_pos {sum : ℕ} (h : 0 < sum) : 0 < fold sum := foldLoop_pos sum h

theorem fold_add_compl (sum : ℕ) : fold (sum + (65535 - fold sum)) = 65535 := by
  have hpos' : 0 < fold (sum + (65535 - fold sum)) := by
    refine fold_pos ?_
    rcases Nat.eq_zero_or_pos sum with rfl | hpos
    · decide
    · omega
  have hlt := fold_lt sum
  have hmod := fold_mod sum
  have hlt' := fold_lt (sum + (65535 - fold sum))
  have hmod' := fold_mod (sum + (65535 - fold sum))
  omega

end OnesComplement
