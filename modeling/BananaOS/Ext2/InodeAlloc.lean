import BananaOS.Lib.GuardedRun
import BananaOS.Ext2.Volume

/-!
# Inode numbers and inode bits

The image builder marks inode `n` by bit `n - 1` of the bitmaps, and `ext2_read_inode`,
`ext2_write_inode` and `ext2_free_inode` look for it there.  `ext2_alloc_inode` takes a clear bit
`i` of group `g` and returns `g * inodes_per_group + i`, which is one less than the inode of that
bit.
-/

namespace BananaOS.Ext2

open Bytes FailState GuardedRun

variable {v : Volume} {s s' : Fs}

/-! ## Bits of a group and inodes -/

variable {g i n : ℕ}

theorem group_index_eq_iff {k : ℕ} (hi : i < v.m.inodesPerGroup) (hk : 0 < k) :
    (inoGroup v.m k = g ∧ inoIndex v.m k = i) ↔ k = g * v.m.inodesPerGroup + i + 1 := by
  unfold inoGroup inoIndex
  constructor
  · rintro ⟨h1, h2⟩
    have hd := Nat.div_add_mod (k - 1) v.m.inodesPerGroup
    rw [h1, h2, Nat.mul_comm] at hd
    omega
  · rintro rfl
    rw [Nat.add_sub_cancel]
    exact ⟨WordBitmap.mul_add_div hi, WordBitmap.mul_add_mod hi⟩

/-! ## Freeing -/

structure InodeFreed (v : Volume) (s : Fs) (n : ℕ) (s' : Fs) : Prop where
  step : MetaStep v s s'
  used : ∀ b < v.m.sBlocksCount, s'.used v b = s.used v b
  inoBit : ∀ k, v.IsIno k → s'.inoBit v k = (!decide (k = n) && s.inoBit v k)
  freeInodes : s'.sFreeInodesCount = incr32 s.sFreeInodesCount
  freeBlocks : s'.sFreeBlocksCount = s.sFreeBlocksCount

theorem freeInode_spec (hi : MetaInv v s) (hn : v.IsIno n) :
    ∃ s', freeInode v.m n s = (some (), s') ∧ InodeFreed v s n s' := by
  have hg := v.inoGroup_lt hn
  set g := inoGroup v.m n with hgdef
  set gd := s.gdesc v g with hgd
  have hbm : v.IsBitmap (v.inodeBitmap g) := ⟨g, hg, .inr rfl⟩
  set s0 : Fs := { s with blkbuf := s.disk (gdescBlock v.m g) } with hs0
  have hi0 : MetaInv v s0 := hi.of_disk rfl rfl
  obtain ⟨s', hrun, hc⟩ := bitmapChanged_run hi0 hbm
    (WordBitmap.clear (w := 8) (s.disk (v.inodeBitmap g)) (inoIndex v.m n)) hg
    (samePointers_wr16 gd (o := 14) (by decide) (bgFreeInodesCount gd + 1))
    (f := fun s => { s with sFreeInodesCount := incr32 s.sFreeInodesCount }) (fun _ => rfl)
    (pure ())
  obtain ⟨hused, hbit⟩ := bits_of_inodeBitmap hg hc.bitmaps
  obtain ⟨t, ht1, ht2, hfb, hfi⟩ := hc.counters
  refine ⟨s', ?_, ⟨hc.step.inv, hc.step.data, hc.step.indbuf, hc.step.dcache,
    hc.step.dcacheNext, hc.step.now⟩, hused, fun k hk => ?_, hfi.trans (congrArg incr32 ht2),
    hfb.trans ht1⟩
  · unfold freeInode
    rw [if_neg (by rw [v.mounted]; simpa using Nat.pos_iff_ne_zero.mp hn.1)]
    rw [bind_of_some (readGdesc_run hi hg), hi.inodeBitmap g hg]
    rw [bind_of_some (bitmapClear_run hi0 (v.inodeBitmap_lt g hg) _)]
    exact hrun
  · rw [hbit k hk]
    by_cases he : inoGroup v.m k = g
    · rw [if_pos he, WordBitmap.get_clear (by decide)]
      -- in the same group the index decides
      have hiff : (inoIndex v.m k = inoIndex v.m n) ↔ k = n := by
        constructor
        · intro hidx
          have h1 := (group_index_eq_iff (v := v) (Nat.mod_lt _ v.ipg_pos) hk.1).mp ⟨he, hidx⟩
          have h2 := (group_index_eq_iff (v := v) (g := g) (Nat.mod_lt _ v.ipg_pos) hn.1).mp
            ⟨rfl, rfl⟩
          exact h1.trans h2.symm
        · rintro rfl
          rfl
      simp only [hiff]
      unfold Fs.inoBit
      rw [he]
    · have hne : k ≠ n := fun h => he (by rw [h])
      rw [if_neg he, decide_eq_false hne]
      rfl

/-! ## Allocating -/

/-- Group `g` counts free inodes, and `i` is the first clear bit of its bitmap from bit 1 on. -/
structure FirstFree (v : Volume) (s : Fs) (g i : ℕ) : Prop where
  counted : bgFreeInodesCount (s.gdesc v g) ≠ 0
  pos : 1 ≤ i
  lt : i < groupRange v.m.sInodesCount v.m.inodesPerGroup g
  clear : WordBitmap.get (w := 8) (s.disk (v.inodeBitmap g)) i = false
  before : ∀ j, 1 ≤ j → j < i → WordBitmap.get (w := 8) (s.disk (v.inodeBitmap g)) j = true

/-- `ext2_alloc_inode` finds a bit. -/
def CanAllocInode (v : Volume) (s : Fs) : Prop :=
  s.sFreeInodesCount ≠ 0 ∧
    ∃ g < groupCount v.m.sInodesCount v.m.inodesPerGroup, ∃ i, FirstFree v s g i

structure InodeTaken (v : Volume) (s : Fs) (g i : ℕ) (s' : Fs) : Prop where
  step : MetaStep v s s'
  used : ∀ b < v.m.sBlocksCount, s'.used v b = s.used v b
  inoBit : ∀ k, v.IsIno k →
    s'.inoBit v k = (decide (k = g * v.m.inodesPerGroup + i + 1) || s.inoBit v k)
  freeInodes : s'.sFreeInodesCount = decr32 s.sFreeInodesCount
  freeBlocks : s'.sFreeBlocksCount = s.sFreeBlocksCount

theorem allocInodeFrom_take (hi : MetaInv v s) (hg : g < v.groups) (hf : FirstFree v s g i)
    (hfind : WordBitmap.firstClear (w := 8) (s.disk (v.inodeBitmap g))
      (groupRange v.m.sInodesCount v.m.inodesPerGroup g - 1) 1 = some i) :
    ∃ s', allocInodeFrom v.m (n + 1) g s = (some (g * v.m.inodesPerGroup + i), s') ∧
      InodeTaken v s g i s' := by
  set gd := s.gdesc v g with hgd
  have hbm : v.IsBitmap (v.inodeBitmap g) := ⟨g, hg, .inr rfl⟩
  set s0 : Fs := { s with blkbuf := s.disk (gdescBlock v.m g) } with hs0
  have hi0 : MetaInv v s0 := hi.of_disk rfl rfl
  have halloc : inodeBitmapAlloc v.m gd (groupRange v.m.sInodesCount v.m.inodesPerGroup g) s0 =
      (some i, s0.withBlock (v.inodeBitmap g)
        (WordBitmap.set (w := 8) (s.disk (v.inodeBitmap g)) i)) := by
    unfold inodeBitmapAlloc
    rw [hi.inodeBitmap g hg, bind_of_some (readBlk_run hi0.healthy (v.inodeBitmap_lt g hg))]
    simp only [gets_bind_run, hs0, hfind, editBlk]
    rw [modify_bind_run, bind_of_some (writeBlk_run (v := v) ?_ (v.inodeBitmap_lt g hg))]
    · rfl
    · exact hi.healthy
  obtain ⟨s', hrun, hc⟩ := bitmapChanged_run hi0 hbm
    (WordBitmap.set (w := 8) (s.disk (v.inodeBitmap g)) i) hg
    (samePointers_wr16 gd (o := 14) (by decide) (bgFreeInodesCount gd + (2 ^ 16 - 1)))
    (f := fun s => { s with sFreeInodesCount := decr32 s.sFreeInodesCount }) (fun _ => rfl)
    (pure (g * v.m.inodesPerGroup + i))
  obtain ⟨hused, hbit⟩ := bits_of_inodeBitmap hg hc.bitmaps
  obtain ⟨t, ht1, ht2, hfb, hfi⟩ := hc.counters
  have hlt : i < v.m.inodesPerGroup := lt_of_lt_of_le hf.lt (Nat.min_le_left _ _)
  refine ⟨s', ?_, ⟨hc.step.inv, hc.step.data, hc.step.indbuf, hc.step.dcache,
    hc.step.dcacheNext, hc.step.now⟩, hused, fun k hk => ?_, hfi.trans (congrArg decr32 ht2),
    hfb.trans ht1⟩
  · unfold allocInodeFrom
    rw [attempt_bind_run, readGdesc_run hi hg]
    simp only
    rw [if_neg hf.counted, attempt_bind_run, halloc]
    exact hrun
  · rw [hbit k hk]
    have hiff := group_index_eq_iff (v := v) (g := g) (k := k) hlt hk.1
    by_cases he : inoGroup v.m k = g
    · rw [if_pos he, WordBitmap.get_set (by decide)]
      have hidx : (inoIndex v.m k = i) ↔ k = g * v.m.inodesPerGroup + i + 1 := by
        rw [← hiff]
        exact ⟨fun h => ⟨he, h⟩, fun h => h.2⟩
      simp only [hidx]
      unfold Fs.inoBit
      rw [he]
    · have hne : k ≠ g * v.m.inodesPerGroup + i + 1 := fun h => he (hiff.mpr h).1
      rw [if_neg he, decide_eq_false hne]
      rfl

theorem FirstFree.congr (h : FirstFree v s g i) (hd : s'.disk = s.disk) : FirstFree v s' g i := by
  have hgd : s'.gdesc v g = s.gdesc v g := by
    unfold Fs.gdesc
    rw [hd]
  refine ⟨by rw [hgd]; exact h.counted, h.pos, h.lt, by rw [hd]; exact h.clear, fun j h1 h2 => ?_⟩
  rw [hd]
  exact h.before j h1 h2

theorem InodeTaken.of_blkbuf {buf : Bytes}
    (h : InodeTaken v { s with blkbuf := buf } g i s') : InodeTaken v s g i s' :=
  ⟨⟨h.step.inv, h.step.data, h.step.indbuf, h.step.dcache, h.step.dcacheNext, h.step.now⟩,
    h.used, h.inoBit, h.freeInodes, h.freeBlocks⟩

theorem firstFree_iff (hc : bgFreeInodesCount (s.gdesc v g) ≠ 0) :
    FirstFree v s g i ↔ WordBitmap.firstClear (w := 8) (s.disk (v.inodeBitmap g))
      (groupRange v.m.sInodesCount v.m.inodesPerGroup g - 1) 1 = some i := by
  constructor
  · intro h
    cases hf : WordBitmap.firstClear (w := 8) (s.disk (v.inodeBitmap g))
        (groupRange v.m.sInodesCount v.m.inodesPerGroup g - 1) 1 with
    | none =>
      have hset := WordBitmap.firstClear_none hf i h.pos (by have := h.lt; omega)
      rw [h.clear] at hset
      cases hset
    | some p =>
      obtain ⟨h1, h2, h3, h4⟩ := WordBitmap.firstClear_some hf
      -- two first clear bits cannot differ
      rcases Nat.lt_trichotomy p i with hlt | rfl | hgt
      · have := h.before p h1 hlt
        rw [h3] at this
        cases this
      · rfl
      · have := h4 i h.pos hgt
        rw [h.clear] at this
        cases this
  · intro hf
    obtain ⟨h1, h2, h3, h4⟩ := WordBitmap.firstClear_some hf
    exact ⟨hc, h1, by omega, h3, h4⟩

/-- A round of the loop finds a bit, or goes on with nothing but the buffer changed. -/
theorem allocInodeFrom_round (hi : MetaInv v s) (hg : g < v.groups) (n : ℕ) :
    (∃ i s', FirstFree v s g i ∧
      allocInodeFrom v.m (n + 1) g s = (some (g * v.m.inodesPerGroup + i), s') ∧
      InodeTaken v s g i s') ∨
    (∀ i, ¬ FirstFree v s g i) ∧ ∃ buf,
      allocInodeFrom v.m (n + 1) g s = allocInodeFrom v.m n (g + 1) { s with blkbuf := buf } := by
  by_cases hc : bgFreeInodesCount (s.gdesc v g) = 0
  · refine .inr ⟨fun i hf => hf.counted hc, s.disk (gdescBlock v.m g), ?_⟩
    rw [allocInodeFrom, attempt_bind_run, readGdesc_run hi hg]
    simp only
    rw [if_pos hc]
  cases hfind : WordBitmap.firstClear (w := 8) (s.disk (v.inodeBitmap g))
      (groupRange v.m.sInodesCount v.m.inodesPerGroup g - 1) 1 with
  | some i =>
    have hf := (firstFree_iff hc).mpr hfind
    obtain ⟨s', hr, ht⟩ := allocInodeFrom_take (n := n) hi hg hf hfind
    exact .inl ⟨i, s', hf, hr, ht⟩
  | none =>
    refine .inr ⟨fun i hf => ?_, s.disk (v.inodeBitmap g), ?_⟩
    · cases hfind.symm.trans ((firstFree_iff hc).mp hf)
    · have hi0 : MetaInv v { s with blkbuf := s.disk (gdescBlock v.m g) } := hi.of_disk rfl rfl
      have halloc : inodeBitmapAlloc v.m (s.gdesc v g)
          (groupRange v.m.sInodesCount v.m.inodesPerGroup g)
          { s with blkbuf := s.disk (gdescBlock v.m g) } =
          (none, { s with blkbuf := s.disk (v.inodeBitmap g) }) := by
        unfold inodeBitmapAlloc
        rw [hi.inodeBitmap g hg, bind_of_some (readBlk_run hi0.healthy (v.inodeBitmap_lt g hg))]
        simp only [gets_bind_run, hfind]
        rfl
      rw [allocInodeFrom, attempt_bind_run, readGdesc_run hi hg]
      simp only
      rw [if_neg hc, attempt_bind_run, halloc]

theorem allocInodeFrom_spec :
    ∀ (n g : ℕ) {s : Fs}, MetaInv v s → (∀ g', g ≤ g' → g' < g + n → g' < v.groups) →
      (∃ g' i s', g' < g + n ∧ FirstFree v s g' i ∧
        allocInodeFrom v.m n g s = (some (g' * v.m.inodesPerGroup + i), s') ∧
        InodeTaken v s g' i s') ∨
      ((∀ g', g ≤ g' → g' < g + n → ∀ i, ¬ FirstFree v s g' i) ∧
        ∃ buf, allocInodeFrom v.m n g s = (none, { s with blkbuf := buf })) := by
  intro n
  induction n with
  | zero => exact fun g s _ _ => .inr ⟨fun g' h1 h2 => absurd h1 (by omega), s.blkbuf, rfl⟩
  | succ n ih =>
    intro g s hi hgr
    have hg := hgr g (le_refl g) (by omega)
    rcases allocInodeFrom_round hi hg n with ⟨i, s', hf, hr, ht⟩ | ⟨hno, buf, hrun⟩
    · exact .inl ⟨g, i, s', by omega, hf, hr, ht⟩
    have hi' : MetaInv v { s with blkbuf := buf } := hi.of_disk rfl rfl
    rcases ih (g + 1) hi' (fun g' h1 h2 => hgr g' (by omega) (by omega)) with
      ⟨g', i, s', hlt, hf, hr, ht⟩ | ⟨hnone, buf', hr⟩
    · exact .inl ⟨g', i, s', by omega, hf.congr rfl, hrun.trans hr, ht.of_blkbuf⟩
    · refine .inr ⟨fun g' h1 h2 i hf => ?_, buf', hrun.trans hr⟩
      rcases Nat.eq_or_lt_of_le h1 with rfl | hlt
      · exact hno i hf
      · exact hnone g' hlt (by omega) i (hf.congr rfl)

theorem lt_groups_of_lt_groupCount (hg : g < groupCount v.m.sInodesCount v.m.inodesPerGroup) :
    g < v.groups ∧ g * v.m.inodesPerGroup < v.m.sInodesCount := by
  have h1 := v.inodes_fit
  have h2 := v.inodes_le
  have hpos := v.ipg_pos
  unfold groupCount at hg
  rw [Nat.mod_eq_of_lt (by omega), Nat.lt_div_iff_mul_lt hpos] at hg
  have h3 : g * v.m.inodesPerGroup < v.m.sInodesCount := by omega
  exact ⟨Nat.lt_of_mul_lt_mul_right (lt_of_lt_of_le h3 h2), h3⟩

theorem allocInode_spec (hi : MetaInv v s) :
    (∃ g i s', g < groupCount v.m.sInodesCount v.m.inodesPerGroup ∧ s.sFreeInodesCount ≠ 0 ∧
      FirstFree v s g i ∧ allocInode v.m s = (some (g * v.m.inodesPerGroup + i), s') ∧
      InodeTaken v s g i s') ∨
    (¬ CanAllocInode v s ∧ ∃ buf, allocInode v.m s = (none, { s with blkbuf := buf })) := by
  unfold allocInode
  rw [if_neg (by rw [v.mounted]; decide), gets_bind_run]
  by_cases hz : s.sFreeInodesCount = 0
  · rw [if_pos hz]
    exact .inr ⟨fun hcan => hcan.1 hz, s.blkbuf, rfl⟩
  · rw [if_neg hz]
    rcases allocInodeFrom_spec (groupCount v.m.sInodesCount v.m.inodesPerGroup) 0 hi
        (fun g' _ h2 => (lt_groups_of_lt_groupCount (by omega)).1) with
      ⟨g, i, s', hlt, hf, hr, ht⟩ | ⟨hnone, buf, hr⟩
    · exact .inl ⟨g, i, s', by omega, hz, hf, hr, ht⟩
    · refine .inr ⟨?_, buf, hr⟩
      rintro ⟨_, g, hg, i, hf⟩
      exact hnone g (Nat.zero_le g) (by omega) i hf

/-! ## Runs of allocations and frees -/

/-- The volume together with the inodes in use, and whether an allocation has returned one that was
in use already. -/
structure InodeRun where
  fs : Fs
  inUse : Finset ℕ
  clash : Bool

inductive InodeOp where
  | alloc
  | free (ino : ℕ)

def InodeRun.step (m : Mount) (r : InodeRun) : InodeOp → Option InodeRun
  | .alloc =>
    match allocInode m r.fs with
    | (some n, s') => some ⟨s', insert n r.inUse, r.clash || decide (n ∈ r.inUse)⟩
    | (none, s') => some { r with fs := s' }
  | .free n =>
    if n ∈ r.inUse then some { r with fs := (freeInode m n r.fs).2, inUse := r.inUse.erase n }
    else none

def Fs.clearInodes (s : Fs) (v : Volume) : Finset ℕ :=
  (Finset.Icc 1 v.m.sInodesCount).filter fun n => s.inoBit v n = false

/-- No allocation has returned an inode in use, the inodes in use are those whose bit is set, and
the counter is the number of clear bits. -/
structure InodesConsistent (v : Volume) (r : InodeRun) : Prop where
  inv : MetaInv v r.fs
  no_clash : r.clash = false
  isIno : ∀ n ∈ r.inUse, v.IsIno n
  inUse_iff : ∀ n, v.IsIno n → (n ∈ r.inUse ↔ r.fs.inoBit v n = true)
  count : r.fs.sFreeInodesCount = (r.fs.clearInodes v).card

def NoAllocation (v : Volume) (r : InodeRun) (op : InodeOp) : Prop :=
  op = .alloc → ¬ CanAllocInode v r.fs

theorem mem_clearInodes : n ∈ s.clearInodes v ↔ v.IsIno n ∧ s.inoBit v n = false := by
  unfold Fs.clearInodes Volume.IsIno
  rw [Finset.mem_filter, Finset.mem_Icc]
  rfl

theorem clearInodes_free (hn : v.IsIno n) (hf : InodeFreed v s n s') :
    s'.clearInodes v = insert n (s.clearInodes v) := by
  ext k
  rw [Finset.mem_insert, mem_clearInodes, mem_clearInodes]
  constructor
  · rintro ⟨hk, hbit⟩
    rw [hf.inoBit k hk] at hbit
    by_cases he : k = n
    · exact .inl he
    · exact .inr ⟨hk, by simpa [he] using hbit⟩
  · rintro (rfl | ⟨hk, hbit⟩)
    · exact ⟨hn, by rw [hf.inoBit k hn]; simp⟩
    · exact ⟨hk, by rw [hf.inoBit k hk, hbit]; simp⟩

theorem step_consistent {r r' : InodeRun} {op : InodeOp} (h : InodesConsistent v r)
    (hno : NoAllocation v r op) (hstep : r.step v.m op = some r') : InodesConsistent v r' := by
  cases op with
  | alloc =>
    rcases allocInode_spec h.inv with ⟨g, i, s', hg, hz, hf, _, _⟩ | ⟨_, buf, hr⟩
    · exact absurd ⟨hz, g, hg, i, hf⟩ (hno rfl)
    · simp only [InodeRun.step, hr, Option.some.injEq] at hstep
      subst hstep
      exact ⟨h.inv.of_disk rfl rfl, h.no_clash, h.isIno, h.inUse_iff, h.count⟩
  | free n =>
    by_cases hmem : n ∈ r.inUse
    · have hn := h.isIno n hmem
      obtain ⟨s', hr, hf⟩ := freeInode_spec h.inv hn
      simp only [InodeRun.step, if_pos hmem, hr, Option.some.injEq] at hstep
      subst hstep
      have hset : r.fs.inoBit v n = true := (h.inUse_iff n hn).mp hmem
      have hnew : n ∉ r.fs.clearInodes v := by
        rw [mem_clearInodes, hset]
        simp
      have hcard := clearInodes_free hn hf
      refine ⟨hf.step.inv, h.no_clash, fun k hk => h.isIno k (Finset.mem_of_mem_erase hk),
        fun k hk => ?_, ?_⟩
      · rw [Finset.mem_erase, hf.inoBit k hk, h.inUse_iff k hk]
        by_cases he : k = n <;> simp [he]
      · show s'.sFreeInodesCount = (s'.clearInodes v).card
        have hle : (insert n (r.fs.clearInodes v)).card ≤ v.m.sInodesCount := by
          rw [← hcard]
          calc (s'.clearInodes v).card ≤ (Finset.Icc 1 v.m.sInodesCount).card :=
                Finset.card_le_card (Finset.filter_subset _ _)
            _ = v.m.sInodesCount := by rw [Nat.card_Icc, Nat.add_sub_cancel]
        rw [hcard, hf.freeInodes, h.count, Finset.card_insert_of_notMem hnew]
        rw [Finset.card_insert_of_notMem hnew] at hle
        have hfit := v.inodes_fit
        exact Nat.mod_eq_of_lt (by omega)
    · simp only [InodeRun.step, if_neg hmem] at hstep
      cases hstep

theorem alloc_breaks {r r' : InodeRun} (h : InodesConsistent v r) (hcan : CanAllocInode v r.fs)
    (hstep : r.step v.m .alloc = some r') : ¬ InodesConsistent v r' := by
  rcases allocInode_spec h.inv with ⟨g, i, s', hg, _, hf, hr, ht⟩ | ⟨hno, _⟩
  · simp only [InodeRun.step, hr, Option.some.injEq] at hstep
    subst hstep
    intro hbad
    obtain ⟨hgr, hgc⟩ := lt_groups_of_lt_groupCount hg
    have hrange : i < v.m.inodesPerGroup ∧ g * v.m.inodesPerGroup + i < v.m.sInodesCount := by
      have := hf.lt
      unfold groupRange at this
      omega
    have hpos := hf.pos
    -- the inode returned, and the inode whose bit was set
    have hret : v.IsIno (g * v.m.inodesPerGroup + i) := ⟨by omega, by omega⟩
    have hset : v.IsIno (g * v.m.inodesPerGroup + i + 1) := ⟨by omega, by omega⟩
    have hnot : g * v.m.inodesPerGroup + i ∉ r.inUse := by
      have := hbad.no_clash
      simpa [h.no_clash] using this
    have hmem : g * v.m.inodesPerGroup + i + 1 ∈ insert (g * v.m.inodesPerGroup + i) r.inUse := by
      rw [hbad.inUse_iff _ hset]
      show s'.inoBit v _ = true
      rw [ht.inoBit _ hset]
      simp
    rcases Finset.mem_insert.mp hmem with he | he
    · omega
    · -- the bit found was clear, so its inode was not in use
      rw [h.inUse_iff _ hset] at he
      have hgi := (group_index_eq_iff (v := v) (g := g) (i := i)
        (k := g * v.m.inodesPerGroup + i + 1) hrange.1 hset.1).mpr rfl
      unfold Fs.inoBit at he
      rw [hgi.1, hgi.2, hf.clear] at he
      cases he
  · exact absurd hcan hno

/-- **Inode numbers, bits and counter.**  From a consistent state, a run of allocations and frees of
inodes in use stays consistent at every step exactly when none of its allocations finds a free bit.
-/
theorem inodes_consistent_iff {r₀ r : InodeRun} {ops : List InodeOp} (h₀ : InodesConsistent v r₀)
    (hrun : Run (InodeRun.step v.m) (fun _ _ => True) r₀ ops r) :
    Run (InodeRun.step v.m) (fun r op => ∀ r', r.step v.m op = some r' → InodesConsistent v r')
        r₀ ops r ↔
      Run (InodeRun.step v.m) (NoAllocation v) r₀ ops r := by
  refine Run.safe_iff (fun _ h => h) (fun _ _ _ h hok hstep => step_consistent h hok hstep) ?_
    hrun h₀
  intro r op r' h hbad hstep
  obtain ⟨rfl, hcan⟩ := Classical.not_imp.mp hbad
  exact alloc_breaks h (not_not.mp hcan) hstep

def sampleRun : InodeRun := ⟨sampleFs, Finset.Icc 1 11, false⟩

theorem sampleRun_consistent : InodesConsistent sampleVolume sampleRun where
  inv := sampleFs_metaInv
  no_clash := rfl
  isIno := by
    intro n hn
    have := Finset.mem_Icc.mp hn
    exact ⟨this.1, le_trans this.2 (by decide)⟩
  inUse_iff := by
    have hall : ∀ n < 33, 0 < n →
        (n ∈ sampleRun.inUse ↔ sampleRun.fs.inoBit sampleVolume n = true) := by decide
    exact fun n hn => hall n (Nat.lt_succ_of_le hn.2) hn.1
  count := by decide

theorem inodes_consistent_iff_sample :
    ∃ r, Run (InodeRun.step sampleVolume.m)
      (fun r op => ∀ r', r.step sampleVolume.m op = some r' → InodesConsistent sampleVolume r')
      sampleRun [.free 11, .free 3] r := by
  refine ⟨_, (inodes_consistent_iff sampleRun_consistent
    (.cons trivial rfl (.cons trivial rfl (.nil _)))).mpr ?_⟩
  exact .cons (fun h => nomatch h) rfl (.cons (fun h => nomatch h) rfl (.nil _))

/-- **On the sample volume the first allocation returns inode 11, which is in use.** -/
theorem allocInode_returns_live_inode :
    InodesConsistent sampleVolume sampleRun ∧
      (allocInode sampleVolume.m sampleRun.fs).1 = some 11 ∧ 11 ∈ sampleRun.inUse :=
  ⟨sampleRun_consistent, by decide, by decide⟩

end BananaOS.Ext2
