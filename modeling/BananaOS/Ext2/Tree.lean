import BananaOS.Ext2.File
import BananaOS.Ext2.BlockAlloc
import BananaOS.Ext2.Record
import BananaOS.Lib.BlockTree

/-!
# Block trees, and what a file holds

The blocks behind an inode form a tree in the sense of `BlockTree`: twelve roots of level 0, one of
level 1, one of level 2.  A volume is `WellFormed` when the trees of its live inodes are sound, the
blocks that trees may own being those in range, outside the metadata and marked used.
-/

namespace BananaOS.Ext2

open Bytes FailState BlockTree

instance neZero_fourteen : NeZero 14 := ⟨by decide⟩

def shape (m : Mount) : Shape (Fin 14) where
  level r := if r.val < 12 then 0 else r.val - 11
  fan := perBlk m

def Inode.roots (i : Inode) (r : Fin 14) : ℕ := i.ptr (r.castLE (by decide))

def maxBlocks (m : Mount) : ℕ := 12 + perBlk m + perBlk m * perBlk m

def slotOf (m : Mount) (idx : ℕ) : Slot (Fin 14) :=
  if idx < 12 then .root (Fin.ofNat 14 idx)
  else if idx - 12 < perBlk m then .entry (.root 12) (idx - 12)
  else .entry (.entry (.root 13) ((idx - 12 - perBlk m) / perBlk m))
    ((idx - 12 - perBlk m) % perBlk m)

/-- The inodes whose pointers are block numbers; a short symbolic link has its text there. -/
def Inode.HasTree (i : Inode) : Prop :=
  i.type = ifReg ∨ i.type = ifDir ∨ (i.type = ifLnk ∧ 60 ≤ i.size.toNat)

def Fs.Live (s : Fs) (v : Volume) (n : ℕ) : Prop := v.IsIno n ∧ s.inoBit v n = true

def Fs.Ok (s : Fs) (v : Volume) (b : ℕ) : Prop :=
  b < v.m.sBlocksCount ∧ ¬ v.IsMeta b ∧ s.used v b = true

/-- The trees are sound, with the inode records taken from `rec`.  While a file is being written its
record is in memory, ahead of the one on the disk. -/
structure TreesInv (v : Volume) (s : Fs) (rec : ℕ → Inode) : Prop extends MetaInv v s where
  metaUsed : ∀ b < v.m.sBlocksCount, v.IsMeta b → s.used v b = true
  sound : Sound (shape v.m) s.disk (fun n => s.Live v n ∧ (rec n).HasTree)
    (fun n => (rec n).roots) (s.Ok v)

def WellFormed (v : Volume) (s : Fs) : Prop := TreesInv v s (s.inode v)

def Fs.block (s : Fs) (i : Inode) (q : Slot (Fin 14)) : ℕ := blockAt s.disk i.roots q

variable {k cur n : ℕ}

theorem Fs.block_entry_of_eq {s : Fs} {i : Inode} {p : Slot (Fin 14)}
    (h : s.block i p = 0) : s.block i (.entry p k) = 0 :=
  blockAt_entry_of_eq h

theorem Fs.block_entry_of_ne {s : Fs} {i : Inode} {p : Slot (Fin 14)}
    (h : s.block i p ≠ 0) : s.block i (.entry p k) = rd32 (s.disk (s.block i p)) (k * 4) :=
  blockAt_entry_of_ne h

/-- **What a file holds** at a position. -/
def Fs.view (s : Fs) (v : Volume) (i : Inode) (pos : ℕ) : Option Byte :=
  if pos / v.m.blkSize < maxBlocks v.m ∧ s.block i (slotOf v.m (pos / v.m.blkSize)) ≠ 0 then
    some (s.disk (s.block i (slotOf v.m (pos / v.m.blkSize))) (pos % v.m.blkSize))
  else none

/-! ## Slots -/

section Slots

variable (v : Volume)

theorem perBlk_pos : 0 < perBlk v.m := by
  unfold perBlk
  rcases v.blkSize_cases with h | h | h <;> rw [h] <;> decide

variable {v} {idx idx' : ℕ}

theorem slotOf_direct {m : Mount} (h : idx < 12) : slotOf m idx = .root (Fin.ofNat 14 idx) :=
  if_pos h

theorem slotOf_single {m : Mount} (h : ¬ idx < 12) (h' : idx - 12 < perBlk m) :
    slotOf m idx = .entry (.root 12) (idx - 12) := by
  unfold slotOf
  rw [if_neg h, if_pos h']

theorem slotOf_double {m : Mount} (h : ¬ idx < 12) (h' : ¬ idx - 12 < perBlk m) :
    slotOf m idx = .entry (.entry (.root 13) ((idx - 12 - perBlk m) / perBlk m))
      ((idx - 12 - perBlk m) % perBlk m) := by
  unfold slotOf
  rw [if_neg h, if_neg h']

theorem level_direct (h : idx < 12) : (Slot.root (Fin.ofNat 14 idx)).level (shape v.m) = 0 := by
  have : idx % 14 = idx := Nat.mod_eq_of_lt (by omega)
  simp [Slot.level, shape, this, h]

theorem single_valid (h : k < perBlk v.m) :
    (Slot.entry (.root 12) k : Slot (Fin 14)).Valid (shape v.m) :=
  ⟨trivial, Nat.one_pos, h⟩

theorem inner_valid (h : k < perBlk v.m) :
    (Slot.entry (.root 13) k : Slot (Fin 14)).Valid (shape v.m) :=
  ⟨trivial, Nat.two_pos, h⟩

theorem double_valid {j : ℕ} (h : k < perBlk v.m) (h' : j < perBlk v.m) :
    (Slot.entry (.entry (.root 13) k) j : Slot (Fin 14)).Valid (shape v.m) :=
  ⟨inner_valid h, Nat.one_pos, h'⟩

theorem div_lt_perBlk (h : idx < maxBlocks v.m) (h1 : ¬ idx < 12)
    (h2 : ¬ idx - 12 < perBlk v.m) : (idx - 12 - perBlk v.m) / perBlk v.m < perBlk v.m := by
  rw [Nat.div_lt_iff_lt_mul (perBlk_pos v)]
  unfold maxBlocks at h
  omega

theorem slotOf_valid (h : idx < maxBlocks v.m) :
    (slotOf v.m idx).Valid (shape v.m) ∧ (slotOf v.m idx).level (shape v.m) = 0 := by
  by_cases h1 : idx < 12
  · rw [slotOf_direct h1]
    exact ⟨trivial, level_direct h1⟩
  · by_cases h2 : idx - 12 < perBlk v.m
    · rw [slotOf_single h1 h2]
      exact ⟨single_valid h2, rfl⟩
    · rw [slotOf_double h1 h2]
      exact ⟨double_valid (div_lt_perBlk h h1 h2) (Nat.mod_lt _ (perBlk_pos v)), rfl⟩

theorem slotOf_inj (h : slotOf v.m idx = slotOf v.m idx') : idx = idx' := by
  unfold slotOf at h
  by_cases h1 : idx < 12 <;> by_cases h1' : idx' < 12
  · rw [if_pos h1, if_pos h1'] at h
    have := congrArg Fin.val (Slot.root.inj h)
    simp only [Fin.val_ofNat] at this
    omega
  · rw [if_pos h1, if_neg h1'] at h
    split at h <;> cases h
  · rw [if_neg h1, if_pos h1'] at h
    split at h <;> cases h
  · rw [if_neg h1, if_neg h1'] at h
    by_cases h2 : idx - 12 < perBlk v.m <;> by_cases h2' : idx' - 12 < perBlk v.m
    · rw [if_pos h2, if_pos h2'] at h
      have := (Slot.entry.inj h).2
      omega
    · rw [if_pos h2, if_neg h2'] at h
      cases (Slot.entry.inj h).1
    · rw [if_neg h2, if_pos h2'] at h
      cases (Slot.entry.inj h).1
    · rw [if_neg h2, if_neg h2'] at h
      obtain ⟨hp, hk⟩ := Slot.entry.inj h
      have := WordBitmap.div_eq_and_mod_eq (Slot.entry.inj hp).2 hk
      omega

theorem level_le (v : Volume) : ∀ q : Slot (Fin 14), q.level (shape v.m) ≤ 2
  | .root r => by
    have := r.isLt
    simp only [Slot.level, shape]
    split <;> omega
  | .entry p _ => by
    have := level_le v p
    simp only [Slot.level]
    omega

theorem root_of_level_pos {r : Fin 14} (h : 0 < (shape v.m).level r) : r = 12 ∨ r = 13 := by
  unfold shape at h
  have hlt := r.isLt
  by_cases h12 : r.val < 12
  · simp [h12] at h
  · rcases Nat.lt_or_ge r.val 13 with h13 | h13
    · exact .inl (Fin.ext (by show r.val = 12; omega))
    · exact .inr (Fin.ext (by show r.val = 13; omega))

theorem valid_cases {q : Slot (Fin 14)} (hq : q.Valid (shape v.m)) :
    (∃ r, q = .root r) ∨ (∃ j < perBlk v.m, q = .entry (.root 12) j) ∨
      (∃ k < perBlk v.m, q = .entry (.root 13) k) ∨
      ∃ k < perBlk v.m, ∃ j < perBlk v.m, q = .entry (.entry (.root 13) k) j := by
  rcases q with r | ⟨p, k⟩
  · exact .inl ⟨r, rfl⟩
  obtain ⟨hp, hl, hk⟩ := hq
  rcases p with r | ⟨p, k'⟩
  · rcases root_of_level_pos hl with rfl | rfl
    · exact .inr (.inl ⟨k, hk, rfl⟩)
    · exact .inr (.inr (.inl ⟨k, hk, rfl⟩))
  obtain ⟨hp, hl', hk'⟩ := hp
  rcases p with r | ⟨p, k₂⟩
  · rcases root_of_level_pos hl' with rfl | rfl
    · exact absurd hl (by simp [Slot.level, shape])
    · exact .inr (.inr (.inr ⟨k', hk', k, hk, rfl⟩))
  · -- there is no third level of tables
    have := level_le v p
    simp only [Slot.level] at hl
    omega

end Slots

/-! ## The read path -/

/-- The values of a partial function from `cur` on, up to the first place where it is undefined and
at most `n` of them. -/
def heldFrom {α : Type} (f : ℕ → Option α) : ℕ → ℕ → List α
  | _, 0 => []
  | cur, n + 1 =>
    match f cur with
    | none => []
    | some c => c :: heldFrom f (cur + 1) n

theorem heldFrom_of_none {α : Type} {f : ℕ → Option α} (h : f cur = none) (n : ℕ) :
    heldFrom f cur n = [] := by
  cases n with
  | zero => rfl
  | succ n => rw [heldFrom, h]

theorem heldFrom_add {α : Type} {f : ℕ → Option α} {g : ℕ → α} (n : ℕ) :
    ∀ cur k : ℕ, (∀ j < k, f (cur + j) = some (g (cur + j))) →
      heldFrom f cur (k + n) =
        (List.range k).map (fun j => g (cur + j)) ++ heldFrom f (cur + k) n := by
  intro cur k
  induction k generalizing cur with
  | zero =>
    intro _
    rw [Nat.zero_add]
    rfl
  | succ k ih =>
    intro h
    have hrest : ∀ j < k, f (cur + 1 + j) = some (g (cur + 1 + j)) := by
      intro j hj
      have := h (j + 1) (by omega)
      rwa [show cur + (j + 1) = cur + 1 + j by omega] at this
    rw [show k + 1 + n = (k + n) + 1 by omega, heldFrom, show f cur = some (g cur) from h 0 (by omega)]
    simp only
    rw [ih (cur + 1) hrest, List.range_succ_eq_map, List.map_cons, List.map_map, List.cons_append,
      show cur + 1 + k = cur + (k + 1) by omega]
    refine congrArg₂ List.cons rfl (congrArg (· ++ _) (List.map_congr_left fun j _ => ?_))
    exact congrArg g (by simp only [Nat.succ_eq_add_one]; omega)

theorem heldFrom_congr {α : Type} {f g : ℕ → Option α} :
    ∀ {n cur : ℕ}, (∀ j < n, f (cur + j) = g (cur + j)) → heldFrom f cur n = heldFrom g cur n := by
  intro n
  induction n with
  | zero => exact fun _ => rfl
  | succ n ih =>
    intro cur h
    rw [heldFrom, heldFrom, show f cur = g cur from h 0 (by omega)]
    have hrest : heldFrom f (cur + 1) n = heldFrom g (cur + 1) n := by
      refine ih fun j hj => ?_
      have := h (j + 1) (by omega)
      rwa [show cur + (j + 1) = cur + 1 + j by omega] at this
    rw [hrest]

section Read

variable {v : Volume} {s : Fs} {i : Inode}

def Fs.InRange (s : Fs) (v : Volume) (i : Inode) : Prop :=
  ∀ q : Slot (Fin 14), q.Valid (shape v.m) → s.block i q ≠ 0 → s.block i q < v.m.sBlocksCount

theorem TreesInv.inRange {rec : ℕ → Inode} (h : TreesInv v s rec) (hn : s.Live v n)
    (ht : (rec n).HasTree) : s.InRange v (rec n) :=
  fun q hq h0 => (h.sound.ok n ⟨hn, ht⟩ q hq h0).1

theorem dataBlock_run (hh : ∀ b, s.fault b = none) (hr : s.InRange v i) (idx : ℕ) :
    ∃ buf, dataBlock v.m i idx s =
      (some (if idx < maxBlocks v.m then s.block i (slotOf v.m idx) else 0),
        { s with indbuf := buf }) := by
  unfold dataBlock
  by_cases h1 : idx < 12
  · have hm : idx < maxBlocks v.m := by unfold maxBlocks; omega
    rw [if_pos h1, if_pos hm, slotOf_direct h1]
    have hfin : (Fin.ofNat 14 idx).castLE (by decide) = Fin.ofNat 15 idx := by
      apply Fin.ext
      simp only [Fin.val_castLE, Fin.val_ofNat]
      omega
    refine ⟨s.indbuf, ?_⟩
    show (some (i.ptr (Fin.ofNat 15 idx)), s) = _
    rw [← hfin]
    rfl
  · rw [if_neg h1]
    by_cases h2 : idx - 12 < perBlk v.m
    · have hm : idx < maxBlocks v.m := by unfold maxBlocks; omega
      rw [if_pos h2, if_pos hm, slotOf_single h1 h2]
      by_cases h3 : i.ptr 12 = 0
      · rw [if_pos h3]
        have he : s.block i (.entry (.root 12) (idx - 12)) = 0 :=
          Fs.block_entry_of_eq (p := .root 12) h3
        exact ⟨s.indbuf, congrArg (fun x => (some x, s)) he.symm⟩
      · have hlt : i.ptr 12 < v.m.sBlocksCount := hr (.root 12) trivial h3
        have he : s.block i (.entry (.root 12) (idx - 12)) =
            rd32 (s.disk (i.ptr 12)) ((idx - 12) * 4) :=
          Fs.block_entry_of_ne (p := .root 12) h3
        rw [if_neg h3, attempt_bind_run, readInd_run hh hlt, he]
        exact ⟨s.disk (i.ptr 12), rfl⟩
    · rw [if_neg h2]
      by_cases h3 : i.ptr 13 = 0
      · rw [if_pos h3, slotOf_double h1 h2]
        refine ⟨s.indbuf, congrArg (fun x => (some x, s)) ?_⟩
        have : s.block i (.entry (.entry (.root 13) ((idx - 12 - perBlk v.m) / perBlk v.m))
            ((idx - 12 - perBlk v.m) % perBlk v.m)) = 0 :=
          Fs.block_entry_of_eq (Fs.block_entry_of_eq (p := .root 13) h3)
        rw [this, ite_self]
      · have hlt : i.ptr 13 < v.m.sBlocksCount := hr (.root 13) trivial h3
        rw [if_neg h3, attempt_bind_run, readInd_run hh hlt]
        simp only
        by_cases h4 : perBlk v.m ≤ (idx - 12 - perBlk v.m) / perBlk v.m
        · have hm : ¬ idx < maxBlocks v.m :=
            fun hm => absurd (div_lt_perBlk hm h1 h2) (by omega)
          rw [if_pos h4, if_neg hm]
          exact ⟨_, rfl⟩
        · have hm : idx < maxBlocks v.m := by
            have := (Nat.div_lt_iff_lt_mul (perBlk_pos v)).mp (not_le.mp h4)
            unfold maxBlocks
            omega
          rw [if_neg h4, if_pos hm, slotOf_double h1 h2, gets_bind_run]
          -- the entry of the table of tables
          have he : s.block i (.entry (.root 13) ((idx - 12 - perBlk v.m) / perBlk v.m)) =
              rd32 (s.disk (i.ptr 13)) ((idx - 12 - perBlk v.m) / perBlk v.m * 4) :=
            Fs.block_entry_of_ne (p := .root 13) h3
          simp only
          rw [← he]
          by_cases h5 : s.block i (.entry (.root 13) ((idx - 12 - perBlk v.m) / perBlk v.m)) = 0
          · rw [if_pos h5]
            exact ⟨_, congrArg (fun x => (some x, _)) (Fs.block_entry_of_eq h5).symm⟩
          · rw [if_neg h5, attempt_bind_run, readInd_run (v := v) ?_
              (hr _ (inner_valid (not_le.mp h4)) h5)]
            · refine ⟨_, congrArg (fun x => (some x, _)) ?_⟩
              exact (Fs.block_entry_of_ne h5).symm
            · exact hh

theorem view_of_none
    (h : (if cur / v.m.blkSize < maxBlocks v.m then s.block i (slotOf v.m (cur / v.m.blkSize))
      else 0) = 0) : s.view v i cur = none := by
  unfold Fs.view
  refine if_neg fun hc => ?_
  rw [if_pos hc.1] at h
  exact hc.2 h

theorem view_of_block (hm : cur / v.m.blkSize < maxBlocks v.m)
    (h0 : s.block i (slotOf v.m (cur / v.m.blkSize)) ≠ 0) {j : ℕ}
    (hj : cur % v.m.blkSize + j < v.m.blkSize) :
    s.view v i (cur + j) =
      some (s.disk (s.block i (slotOf v.m (cur / v.m.blkSize))) (cur % v.m.blkSize + j)) := by
  have hpos := v.blkSize_pos
  have hcur : cur + j = v.m.blkSize * (cur / v.m.blkSize) + (cur % v.m.blkSize + j) := by
    have := Nat.div_add_mod cur v.m.blkSize
    omega
  have hdiv : (cur + j) / v.m.blkSize = cur / v.m.blkSize := by
    rw [hcur, Nat.mul_add_div hpos, Nat.div_eq_of_lt hj, Nat.add_zero]
  have hmod : (cur + j) % v.m.blkSize = cur % v.m.blkSize + j := by
    rw [hcur, Nat.mul_add_mod, Nat.mod_eq_of_lt hj]
  unfold Fs.view
  rw [hdiv, hmod, if_pos ⟨hm, h0⟩]

theorem readLoop_run (hr : s.InRange v i) :
    ∀ (fuel cur size : ℕ) (s' : Fs), s'.disk = s.disk → (∀ b, s'.fault b = none) → size ≤ fuel →
      ∃ b1 b2, readLoop v.m i fuel cur size s' =
        (some (heldFrom (s.view v i) cur size), { s' with blkbuf := b1, indbuf := b2 }) := by
  intro fuel
  induction fuel with
  | zero =>
    intro cur size s' _ _ hle
    obtain rfl : size = 0 := by omega
    exact ⟨s'.blkbuf, s'.indbuf, rfl⟩
  | succ fuel ih =>
    intro cur size s' hd hh hle
    rw [readLoop]
    by_cases hz : size = 0
    · subst hz
      exact ⟨s'.blkbuf, s'.indbuf, rfl⟩
    · rw [if_neg hz]
      have hblk : ∀ q, s'.block i q = s.block i q := fun q => by unfold Fs.block; rw [hd]
      have hr' : s'.InRange v i := fun q hq h0 => by
        rw [hblk q] at h0 ⊢
        exact hr q hq h0
      obtain ⟨buf, hrun⟩ := dataBlock_run hh hr' (cur / v.m.blkSize)
      rw [hblk] at hrun
      rw [bind_of_some hrun]
      by_cases h0 : (if cur / v.m.blkSize < maxBlocks v.m then
          s.block i (slotOf v.m (cur / v.m.blkSize)) else 0) = 0
      · rw [if_pos h0, heldFrom_of_none (view_of_none h0)]
        exact ⟨s'.blkbuf, buf, rfl⟩
      · rw [if_neg h0]
        have hm : cur / v.m.blkSize < maxBlocks v.m := by
          by_contra hm
          exact h0 (if_neg hm)
        rw [if_pos hm] at h0 ⊢
        have hlt := hr _ (slotOf_valid hm).1 h0
        rw [attempt_bind_run, readBlk_run (v := v) ?_ hlt]
        · simp only
          rw [gets_bind_run]
          -- one chunk, inside the block
          set chunk := min (v.m.blkSize - cur % v.m.blkSize) size with hchunk
          have hmod := Nat.mod_lt cur v.blkSize_pos
          obtain ⟨b1, b2, hrest⟩ := ih (cur + chunk) (size - chunk)
            { s' with
              indbuf := buf
              blkbuf := s'.disk (s.block i (slotOf v.m (cur / v.m.blkSize))) } hd hh (by omega)
          rw [bind_of_some hrest]
          refine ⟨b1, b2, ?_⟩
          have hsplit := heldFrom_add (f := s.view v i)
            (g := fun p => s.disk (s.block i (slotOf v.m (cur / v.m.blkSize)))
              (cur % v.m.blkSize + (p - cur)))
            (size - chunk) cur chunk fun j hj => by
              rw [view_of_block hm h0 (by omega), Nat.add_sub_cancel_left]
          rw [show chunk + (size - chunk) = size by omega] at hsplit
          rw [hsplit, hd]
          simp only [Nat.add_sub_cancel_left]
          rfl
        · exact hh

variable (hi : MetaInv v s)

include hi

theorem readFile_run (hn : v.IsIno n) (ht : (s.inode v n).type = ifReg ∨ (s.inode v n).type = ifLnk)
    (hr : s.InRange v (s.inode v n)) (offset size : ℕ) :
    ∃ b1 b2, readFile v.m n offset size s =
      (some (heldFrom (s.view v (s.inode v n)) offset
        (min size ((s.inode v n).size.toNat - offset))), { s with blkbuf := b1, indbuf := b2 }) := by
  unfold readFile
  rw [if_neg (by rw [v.mounted]; decide), bind_of_some (readInode_run hi hn)]
  rw [if_neg (by tauto)]
  by_cases hoff : (s.inode v n).size.toNat ≤ offset
  · rw [if_pos hoff, Nat.sub_eq_zero_of_le hoff, Nat.min_zero]
    exact ⟨_, s.indbuf, rfl⟩
  · rw [if_neg hoff]
    obtain ⟨b1, b2, h⟩ := readLoop_run hr (min size ((s.inode v n).size.toNat - offset)) offset
      (min size ((s.inode v n).size.toNat - offset)) { s with blkbuf := s.disk (v.recBlock n) } rfl hi.healthy (le_refl _)
    exact ⟨b1, b2, h⟩

theorem readFile_of_type (hn : v.IsIno n)
    (ht : ¬ ((s.inode v n).type = ifReg ∨ (s.inode v n).type = ifLnk)) (offset size : ℕ) :
    (readFile v.m n offset size s).1 = none := by
  have ht' : (s.inode v n).type ≠ ifReg ∧ (s.inode v n).type ≠ ifLnk := not_or.mp ht
  unfold readFile
  rw [if_neg (by rw [v.mounted]; decide), bind_of_some (readInode_run hi hn), if_pos ht']
  rfl

theorem readFile_congr {s' : Fs} (hi' : MetaInv v s') (hn : v.IsIno n)
    (hrec : s'.inode v n = s.inode v n) (hr : s.InRange v (s.inode v n))
    (hr' : s'.InRange v (s.inode v n))
    (hview : ∀ pos, s'.view v (s.inode v n) pos = s.view v (s.inode v n) pos) (offset size : ℕ) :
    (readFile v.m n offset size s').1 = (readFile v.m n offset size s).1 := by
  by_cases ht : (s.inode v n).type = ifReg ∨ (s.inode v n).type = ifLnk
  · obtain ⟨b1, b2, h⟩ := readFile_run hi hn ht hr offset size
    rw [← hrec] at ht hr'
    obtain ⟨b1', b2', h'⟩ := readFile_run hi' hn ht hr' offset size
    rw [h, h', hrec]
    exact congrArg some (heldFrom_congr fun j _ => hview _)
  · rw [readFile_of_type hi hn ht, readFile_of_type hi' hn (by rwa [hrec])]

theorem readFile_blkbuf (hn : v.IsIno n) (buf : Bytes) (offset size : ℕ) :
    (readFile v.m n offset size { s with blkbuf := buf }).1 =
      (readFile v.m n offset size s).1 := by
  have hi' : MetaInv v { s with blkbuf := buf } := hi.of_disk rfl rfl
  have hm : ¬ v.m.mounted = false := by rw [v.mounted]; decide
  unfold readFile
  rw [if_neg hm, bind_of_some (readInode_run hi hn), bind_of_some (readInode_run hi' hn)]
  rfl

theorem symlinkTarget_congr {s' : Fs} (hi' : MetaInv v s')
    (hn : v.IsIno n) (hrec : s'.inode v n = s.inode v n)
    (hread : (s.inode v n).HasTree →
      ∀ offset size, (readFile v.m n offset size s').1 = (readFile v.m n offset size s).1)
    (max : ℕ) : (symlinkTarget v.m n max s').1 = (symlinkTarget v.m n max s).1 := by
  unfold symlinkTarget
  by_cases hz : v.m.mounted = false ∨ max = 0
  · rw [if_pos hz]
    rfl
  · rw [if_neg hz, bind_of_some (readInode_run hi hn), bind_of_some (readInode_run hi' hn), hrec]
    by_cases ht : (s.inode v n).type ≠ ifLnk
    · rw [if_pos ht]
      rfl
    · rw [if_neg ht]
      by_cases hs : (s.inode v n).size.toNat < 60
      · rw [if_pos hs]
        rfl
      · rw [if_neg hs]
        set size := if max ≤ (s.inode v n).size.toNat then max - 1 else (s.inode v n).size.toNat
        have h := hread (.inr (.inr ⟨not_not.mp ht, not_lt.mp hs⟩)) 0 size
        have hb := readFile_blkbuf hi hn (s.disk (v.recBlock n)) 0 size
        have hb' := readFile_blkbuf hi' hn (s'.disk (v.recBlock n)) 0 size
        rw [bind_run, bind_run]
        rcases hx : readFile v.m n 0 size { s with blkbuf := s.disk (v.recBlock n) } with ⟨o, u⟩
        rcases hx' : readFile v.m n 0 size { s' with blkbuf := s'.disk (v.recBlock n) } with ⟨o', u'⟩
        rw [hx] at hb
        rw [hx'] at hb'
        obtain rfl : o' = o := hb'.trans (h.trans hb.symm)
        cases o' <;> rfl

end Read

/-! ## The small volume -/

theorem eq_root_of_block_ne_zero {v : Volume} {s : Fs} {i : Inode}
    (h : ∀ r : Fin 14, r ≠ 0 → i.roots r = 0) :
    ∀ q : Slot (Fin 14), q.Valid (shape v.m) → s.block i q ≠ 0 → q = .root 0
  | .root r, _, h0 => by
    by_contra hne
    exact h0 (h r fun hr => hne (congrArg Slot.root hr))
  | .entry p k, hq, h0 => by
    have hp0 : s.block i p ≠ 0 := fun hp => h0 (Fs.block_entry_of_eq hp)
    have hp := eq_root_of_block_ne_zero h p hq.1 hp0
    have hl := hq.2.1
    rw [hp] at hl
    exact absurd hl (Nat.lt_irrefl 0)

theorem sampleFs_inode_root : sampleFs.inode sampleVolume 2 = sampleRoot :=
  Inode.decode_encode sampleRoot zero 128

theorem sampleFs_inode_file : sampleFs.inode sampleVolume 11 = sampleFile :=
  Inode.decode_encode sampleFile zero 256

theorem sampleFs_type_eq_zero : ∀ n < 33, n ≠ 0 → n ≠ 2 → n ≠ 11 →
    (sampleFs.inode sampleVolume n).type = 0 := by
  decide

theorem sampleVolume_isMeta_le {b : ℕ} (h : sampleVolume.IsMeta b) : b ≤ 8 := by
  rcases h with (rfl | ⟨g, hg, rfl | rfl | rfl⟩) | ⟨n, hn, rfl⟩
  · decide
  · have : g < 1 := hg
    obtain rfl : g = 0 := by omega
    decide
  · show 3 ≤ 8
    decide
  · show 4 ≤ 8
    decide
  · show (5 * 1024 + (n - 1) % 32 * 128) % 2 ^ 32 / 1024 ≤ 8
    omega

theorem sampleFs_used : ∀ b ≤ 10, sampleFs.used sampleVolume b = true := by
  decide

theorem sampleFs_block (hn : sampleVolume.IsIno n)
    (ht : (sampleFs.inode sampleVolume n).HasTree) {q : Slot (Fin 14)}
    (hq : q.Valid (shape sampleVolume.m)) (h0 : sampleFs.block (sampleFs.inode sampleVolume n) q ≠ 0) :
    q = .root 0 ∧ ((n = 2 ∧ sampleFs.block (sampleFs.inode sampleVolume n) q = 9) ∨
      (n = 11 ∧ sampleFs.block (sampleFs.inode sampleVolume n) q = 10)) := by
  by_cases h2 : n = 2
  · subst h2
    rw [sampleFs_inode_root] at h0 ⊢
    have hq0 := eq_root_of_block_ne_zero (i := sampleRoot) (by decide) q hq h0
    subst hq0
    exact ⟨rfl, .inl ⟨rfl, rfl⟩⟩
  · by_cases h11 : n = 11
    · subst h11
      rw [sampleFs_inode_file] at h0 ⊢
      have hq0 := eq_root_of_block_ne_zero (i := sampleFile) (by decide) q hq h0
      subst hq0
      exact ⟨rfl, .inr ⟨rfl, rfl⟩⟩
    · have hle : n ≤ 32 := hn.2
      have htype := sampleFs_type_eq_zero n (by omega) (by have := hn.1; omega) h2 h11
      unfold Inode.HasTree at ht
      rw [htype] at ht
      rcases ht with ht | ht | ⟨ht, -⟩ <;> exact absurd ht (by decide)

theorem sampleFs_wellFormed : WellFormed sampleVolume sampleFs where
  toMetaInv := sampleFs_metaInv
  metaUsed b _ hm := sampleFs_used b (by have := sampleVolume_isMeta_le hm; omega)
  sound := by
    refine ⟨fun n hn q hq h0 => ?_, fun n n' hn hn' q q' hq hq' h0 he => ?_⟩
    · have hok : ∀ b, b = 9 ∨ b = 10 → sampleFs.Ok sampleVolume b := by
        intro b hb
        have h64 : sampleVolume.m.sBlocksCount = 64 := rfl
        refine ⟨by omega, fun hm => ?_, sampleFs_used b (by omega)⟩
        have := sampleVolume_isMeta_le hm
        omega
      exact hok _ ((sampleFs_block hn.1.1 hn.2 hq h0).2.imp And.right And.right)
    · have h0' : sampleFs.block (sampleFs.inode sampleVolume n') q' ≠ 0 := fun h => h0 (he.trans h)
      have he' : sampleFs.block (sampleFs.inode sampleVolume n) q =
          sampleFs.block (sampleFs.inode sampleVolume n') q' := he
      obtain ⟨h1, h2⟩ := sampleFs_block hn.1.1 hn.2 hq h0
      obtain ⟨h1', h2'⟩ := sampleFs_block hn'.1.1 hn'.2 hq' h0'
      refine ⟨?_, h1.trans h1'.symm⟩
      omega

end BananaOS.Ext2
