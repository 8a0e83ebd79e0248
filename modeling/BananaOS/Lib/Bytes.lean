import Mathlib

/-!
# Byte memories

A buffer, a disk block and a record in it are all the same thing here: a function from offsets to
bytes.  Two- and four-byte words are stored least significant byte first.
-/

abbrev Byte := BitVec 8

abbrev Bytes := ℕ → Byte

namespace Bytes

def byteOf (v k : ℕ) : Byte := BitVec.ofNat 8 (v / 256 ^ k)

def rd16 (p : Bytes) (o : ℕ) : ℕ :=
  (p o).toNat + 256 * (p (o + 1)).toNat

def rd32 (p : Bytes) (o : ℕ) : ℕ :=
  (p o).toNat + 256 * (p (o + 1)).toNat + 65536 * (p (o + 2)).toNat + 16777216 * (p (o + 3)).toNat

def wr8 (p : Bytes) (o v : ℕ) : Bytes :=
  fun j => if j = o then byteOf v 0 else p j

def wr16 (p : Bytes) (o v : ℕ) : Bytes :=
  fun j => if o ≤ j ∧ j < o + 2 then byteOf v (j - o) else p j

def wr32 (p : Bytes) (o v : ℕ) : Bytes :=
  fun j => if o ≤ j ∧ j < o + 4 then byteOf v (j - o) else p j

def rd64 (p : Bytes) (o : ℕ) : ℕ := rd32 p o + 2 ^ 32 * rd32 p (o + 4)

def wr64 (p : Bytes) (o v : ℕ) : Bytes := wr32 (wr32 p o v) (o + 4) (v / 2 ^ 32)

def copyIn (p : Bytes) (o n : ℕ) (src : Bytes) : Bytes :=
  fun j => if o ≤ j ∧ j < o + n then src (j - o) else p j

def drop (p : Bytes) (o : ℕ) : Bytes := fun j => p (o + j)

def zero : Bytes := fun _ => 0#8

/-! ## Reads -/

variable {p src : Bytes} {o o' v j n k : ℕ}

theorem rd32_lt (p : Bytes) (o : ℕ) : rd32 p o < 2 ^ 32 := by
  have h0 := (p o).isLt
  have h1 := (p (o + 1)).isLt
  have h2 := (p (o + 2)).isLt
  have h3 := (p (o + 3)).isLt
  unfold rd32
  omega

theorem rd32_congr {q : Bytes} (h : ∀ k < 4, p (o + k) = q (o' + k)) : rd32 p o = rd32 q o' := by
  have h0 := h 0 (by omega)
  unfold rd32
  rw [h 1 (by omega), h 2 (by omega), h 3 (by omega)]
  rw [Nat.add_zero, Nat.add_zero] at h0
  rw [h0]

theorem rd16_congr {q : Bytes} (h : ∀ k < 2, p (o + k) = q (o' + k)) : rd16 p o = rd16 q o' := by
  have h0 := h 0 (by omega)
  unfold rd16
  rw [h 1 (by omega)]
  rw [Nat.add_zero, Nat.add_zero] at h0
  rw [h0]

theorem rd32_drop (p : Bytes) (o k : ℕ) : rd32 (drop p o) k = rd32 p (o + k) :=
  rd32_congr fun j _ => congrArg p (Nat.add_assoc o k j).symm

theorem rd16_drop (p : Bytes) (o k : ℕ) : rd16 (drop p o) k = rd16 p (o + k) :=
  rd16_congr fun j _ => congrArg p (Nat.add_assoc o k j).symm

theorem rd32_zero (o : ℕ) : rd32 zero o = 0 := rfl

/-! ## Writes -/

theorem toNat_byteOf (v k : ℕ) : (byteOf v k).toNat = v / 256 ^ k % 256 :=
  BitVec.toNat_ofNat _ _

theorem wr8_same (p : Bytes) (o v : ℕ) : wr8 p o v o = byteOf v 0 := if_pos rfl

theorem wr8_ne (h : j ≠ o) : wr8 p o v j = p j := if_neg h

theorem wr16_out (h : j < o ∨ o + 2 ≤ j) : wr16 p o v j = p j :=
  if_neg (by omega)

theorem wr32_out (h : j < o ∨ o + 4 ≤ j) : wr32 p o v j = p j :=
  if_neg (by omega)

theorem copyIn_out (h : j < o ∨ o + n ≤ j) : copyIn p o n src j = p j :=
  if_neg (by omega)

theorem copyIn_in (h : o ≤ j) (h' : j < o + n) : copyIn p o n src j = src (j - o) :=
  if_pos ⟨h, h'⟩

theorem wr16_in (h : k < 2) : wr16 p o v (o + k) = byteOf v k := by
  unfold wr16
  rw [if_pos ⟨by omega, by omega⟩, Nat.add_sub_cancel_left]

theorem wr32_in (h : k < 4) : wr32 p o v (o + k) = byteOf v k := by
  unfold wr32
  rw [if_pos ⟨by omega, by omega⟩, Nat.add_sub_cancel_left]

theorem rd32_of_byteOf (h : ∀ k < 4, p (o + k) = byteOf v k) : rd32 p o = v % 2 ^ 32 := by
  have h0 := congrArg BitVec.toNat (h 0 (by omega))
  have h1 := congrArg BitVec.toNat (h 1 (by omega))
  have h2 := congrArg BitVec.toNat (h 2 (by omega))
  have h3 := congrArg BitVec.toNat (h 3 (by omega))
  rw [toNat_byteOf] at h0 h1 h2 h3
  rw [Nat.add_zero] at h0
  unfold rd32
  rw [h0, h1, h2, h3]
  omega

theorem rd16_of_byteOf (h : ∀ k < 2, p (o + k) = byteOf v k) : rd16 p o = v % 2 ^ 16 := by
  have h0 := congrArg BitVec.toNat (h 0 (by omega))
  have h1 := congrArg BitVec.toNat (h 1 (by omega))
  rw [toNat_byteOf] at h0 h1
  rw [Nat.add_zero] at h0
  unfold rd16
  rw [h0, h1]
  omega

theorem rd32_wr32 (p : Bytes) (o v : ℕ) : rd32 (wr32 p o v) o = v % 2 ^ 32 :=
  rd32_of_byteOf fun _ hk => wr32_in hk

theorem rd16_wr16 (p : Bytes) (o v : ℕ) : rd16 (wr16 p o v) o = v % 2 ^ 16 :=
  rd16_of_byteOf fun _ hk => wr16_in hk

theorem rd32_wr32_of_disjoint (h : o' + 4 ≤ o ∨ o + 4 ≤ o') : rd32 (wr32 p o v) o' = rd32 p o' :=
  rd32_congr fun _ hk => wr32_out (by omega)

theorem rd32_wr16_of_disjoint (h : o' + 4 ≤ o ∨ o + 2 ≤ o') : rd32 (wr16 p o v) o' = rd32 p o' :=
  rd32_congr fun _ hk => wr16_out (by omega)

theorem rd16_wr32_of_disjoint (h : o' + 2 ≤ o ∨ o + 4 ≤ o') : rd16 (wr32 p o v) o' = rd16 p o' :=
  rd16_congr fun _ hk => wr32_out (by omega)

theorem rd16_wr16_of_disjoint (h : o' + 2 ≤ o ∨ o + 2 ≤ o') : rd16 (wr16 p o v) o' = rd16 p o' :=
  rd16_congr fun _ hk => wr16_out (by omega)

theorem rd16_wr8_of_disjoint (h : o' + 2 ≤ o ∨ o + 1 ≤ o') : rd16 (wr8 p o v) o' = rd16 p o' :=
  rd16_congr fun _ _ => wr8_ne (by omega)

theorem rd32_copyIn_of_disjoint (h : o' + 4 ≤ o ∨ o + n ≤ o') :
    rd32 (copyIn p o n src) o' = rd32 p o' :=
  rd32_congr fun _ hk => copyIn_out (by omega)

theorem rd32_copyIn (h : k + 4 ≤ n) : rd32 (copyIn p o n src) (o + k) = rd32 src k := by
  refine rd32_congr fun j hj => ?_
  rw [copyIn_in (by omega) (by omega)]
  congr 1
  omega

theorem rd16_copyIn (h : k + 2 ≤ n) : rd16 (copyIn p o n src) (o + k) = rd16 src k := by
  refine rd16_congr fun j hj => ?_
  rw [copyIn_in (by omega) (by omega)]
  congr 1
  omega

theorem wr64_out (h : j < o ∨ o + 8 ≤ j) : wr64 p o v j = p j := by
  rw [wr64, wr32_out (by omega), wr32_out (by omega)]

theorem rd64_congr {q : Bytes} (h : ∀ k < 8, p (o + k) = q (o' + k)) : rd64 p o = rd64 q o' := by
  rw [rd64, rd64, rd32_congr fun k hk => h k (by omega), rd32_congr (p := p) fun k hk => ?_]
  rw [Nat.add_assoc, Nat.add_assoc]
  exact h (4 + k) (by omega)

theorem rd64_wr64 (p : Bytes) (hv : v < 2 ^ 64) : rd64 (wr64 p o v) o = v := by
  rw [rd64, wr64, rd32_wr32_of_disjoint (by omega), rd32_wr32, rd32_wr32]
  omega

theorem rd16_copyIn_of_disjoint (h : o' + 2 ≤ o ∨ o + n ≤ o') :
    rd16 (copyIn p o n src) o' = rd16 p o' :=
  rd16_congr fun _ hk => copyIn_out (by omega)

end Bytes
