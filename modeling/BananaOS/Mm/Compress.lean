import BananaOS.Mm.PageAllocator
import BananaOS.Lib.Bytes

/-!
# Compressing a page

A page is stored as its difference to a base page, up to the last byte that differs.  A page equal to
its base is stored as one byte, so a length is never 0.  The bytes behind that length are not looked
at again, which is what lets the caller keep only the first ones.
-/

namespace BananaOS.Mm

open Function Bytes

structure CompressedPage where
  basePagePtr : BitVec 64
  xorData : ℕ → Byte
  validBytes : ℕ
  originalAddr : BitVec 32

structure CompressStats where
  totalOriginal : UInt64
  totalCompressed : UInt64
  compressCount : UInt32

/-- One round of the loop: the bytes written so far, and `last_nonzero`. -/
def xorRound (src base : ℕ → Byte) (acc : (ℕ → Byte) × ℕ) (i : ℕ) : (ℕ → Byte) × ℕ :=
  (update acc.1 i (src i ^^^ base i), if src i ^^^ base i ≠ 0 then i else acc.2)

/-- `compress_xor`, of the bytes `src` at `srcPage` against the bytes `base` at `basePage`. -/
def compressXor (srcPage basePage : BitVec 64) (src base : ℕ → Byte) (dst : CompressedPage)
    (stats : CompressStats) : ℤ × CompressedPage × CompressStats :=
  let r := (List.range 4096).foldl (xorRound src base) (dst.xorData, 0)
  let valid := r.2 + 1
  (valid,
    { basePagePtr := basePage
      xorData := r.1
      validBytes := valid
      originalAddr := srcPage.setWidth 32 },
    { totalOriginal := stats.totalOriginal + 4096
      totalCompressed := stats.totalCompressed + UInt64.ofNat valid
      compressCount := stats.compressCount + 1 })

def setBytes (f : ℕ → Byte) (l : List ℕ) (dst : ℕ → Byte) : ℕ → Byte :=
  l.foldl (fun d i => update d i (f i)) dst

def decompressXor (src : CompressedPage) (base dst : ℕ → Byte) : ℕ → Byte :=
  setBytes base (List.range' src.validBytes (4096 - src.validBytes))
    (setBytes (fun i => src.xorData i ^^^ base i) (List.range src.validBytes) dst)

section

variable (src base : ℕ → Byte)

theorem setBytes_apply (f : ℕ → Byte) (l : List ℕ) (dst : ℕ → Byte) (i : ℕ) :
    setBytes f l dst i = if i ∈ l then f i else dst i := by
  induction l generalizing dst with
  | nil => rfl
  | cons j l ih =>
    refine (ih (update dst j (f j))).trans ?_
    by_cases hij : i = j
    · subst hij
      simp
    · simp [hij]

theorem decompressXor_apply (c : CompressedPage) (dst : ℕ → Byte) {i : ℕ} (hi : i < 4096) :
    decompressXor c base dst i =
      if i < c.validBytes then c.xorData i ^^^ base i else base i := by
  rw [decompressXor, setBytes_apply, setBytes_apply]
  simp only [List.mem_range'_1, List.mem_range]
  by_cases hv : i < c.validBytes
  · rw [if_neg (by omega), if_pos hv, if_pos hv]
  · rw [if_pos (by omega), if_neg hv]

theorem xorLoop_spec (x : ℕ → Byte) (n : ℕ) :
    let r := (List.range n).foldl (xorRound src base) (x, 0)
    (∀ i < n, r.1 i = src i ^^^ base i) ∧ r.2 ≤ n - 1 ∧ (∀ i < n, r.2 < i → src i = base i) ∧
      (r.2 = 0 ∨ src r.2 ≠ base r.2) := by
  induction n with
  | zero => simp
  | succ n ih =>
    obtain ⟨hbytes, hle, hafter, hlast⟩ := ih
    simp only [List.range_succ, List.foldl_append, List.foldl_cons, List.foldl_nil]
    generalize (List.range n).foldl (xorRound src base) (x, 0) = r at hbytes hle hafter hlast ⊢
    have hdiff : src n ^^^ base n ≠ 0 ↔ src n ≠ base n := not_congr BitVec.xor_eq_zero_iff
    simp only [xorRound, hdiff]
    refine ⟨fun i hi => ?_, ?_, fun i hi hlt => ?_, ?_⟩
    · rcases Nat.lt_succ_iff_lt_or_eq.mp hi with hi | rfl
      · rw [update_of_ne hi.ne, hbytes i hi]
      · rw [update_self]
    · split_ifs <;> omega
    · split_ifs at hlt with hn
      · omega
      · rcases Nat.lt_succ_iff_lt_or_eq.mp hi with hi | rfl
        · exact hafter i hi hlt
        · exact not_not.mp hn
    · by_cases hn : src n ≠ base n
      · rw [if_pos hn]
        exact .inr hn
      · rw [if_neg hn]
        exact hlast

/-- The first `n` bytes of the difference are enough to get the page back, whatever is behind them
and in the page that is written. -/
def Restores (c : CompressedPage) (n : ℕ) : Prop :=
  ∀ x : ℕ → Byte, (∀ i < n, x i = c.xorData i) → ∀ dst, ∀ i < 4096,
    decompressXor { c with xorData := x, validBytes := n } base dst i = src i

/-- **Compressing and decompressing** give the page back, from `valid_bytes` bytes and from no
smaller positive number of them. -/
theorem compressXor_restores (srcPage basePage : BitVec 64) (dst : CompressedPage)
    (stats : CompressStats) :
    let c := (compressXor srcPage basePage src base dst stats).2.1
    Restores src base c c.validBytes ∧ 1 ≤ c.validBytes ∧ c.validBytes ≤ 4096 ∧
      ∀ n, 0 < n → Restores src base c n → c.validBytes ≤ n := by
  obtain ⟨hbytes, hle, hafter, hlast⟩ := xorLoop_spec src base dst.xorData 4096
  simp only [compressXor]
  generalize (List.range 4096).foldl (xorRound src base) (dst.xorData, 0) = r
    at hbytes hle hafter hlast ⊢
  refine ⟨fun x hx d i hi => ?_, by omega, by omega, fun n hn hrest => ?_⟩
  · rw [decompressXor_apply base _ d hi]
    dsimp only
    by_cases hv : i < r.2 + 1
    · have hxi : x i = src i ^^^ base i := (hx i hv).trans (hbytes i hi)
      rw [if_pos hv, hxi, BitVec.xor_assoc, BitVec.xor_self, BitVec.xor_zero]
    · rw [if_neg hv]
      exact (hafter i hi (by omega)).symm
  · -- with fewer bytes the last difference would be lost
    by_contra hlt
    have hpage := hrest r.1 (fun _ _ => rfl) base r.2 (by omega)
    rw [decompressXor_apply base _ base (by omega), if_neg (by dsimp only; omega)] at hpage
    exact (hlast.resolve_left (by omega)) hpage.symm

end

end BananaOS.Mm
