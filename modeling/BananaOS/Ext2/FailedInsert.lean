import BananaOS.Ext2.BlockCount
import BananaOS.Ext2.DirMap

/-!
# An insertion that fails

`ext2_dir_insert` can fail after it has allocated a block and written to it: there may be no block
left for the table that has to hold it, or the directory may have as many blocks as it can.  Then it
gives the block back.
-/

namespace BananaOS.Ext2

open Function Bytes FailState

variable {v : Volume} {s s' : Fs} {n : ℕ}

/-! ## Bitmaps -/

structure SameBitmap (v : Volume) (s s' : Fs) : Prop where
  bitmap : ∀ g < v.groups, s'.disk (v.blockBitmap g) = s.disk (v.blockBitmap g)
  counted : BlocksCounted v s'

theorem BlocksCounted.of_sameMeta (h : BlocksCounted v s) (hm : SameMeta v s s')
    (hc : s'.sFreeBlocksCount = s.sFreeBlocksCount) : BlocksCounted v s' := by
  have hbit : ∀ g < v.groups, s'.disk (v.blockBitmap g) = s.disk (v.blockBitmap g) :=
    fun g hg => hm.disk _ (.inl (.inr ⟨g, hg, .inr (.inl rfl)⟩))
  have hfree : ∀ g < v.groups, s'.freeIn v g = s.freeIn v g := fun g hg => by
    rw [Fs.freeIn, Fs.freeIn, hbit g hg]
  have htotal : s'.freeTotal v = s.freeTotal v :=
    Finset.sum_congr rfl fun g hg => hfree g (Finset.mem_range.mp hg)
  refine ⟨hm.inv h.inv, fun g hg => ?_, ?_, ?_, fun b hb h0 => ?_⟩
  · rw [hfree g hg, ← h.group g hg, Fs.gdesc, Fs.gdesc, hm.disk _ (.inl (.inr ⟨g, hg, .inl rfl⟩))]
  · rw [hc, htotal, h.memory]
  · rw [hm.disk _ (.inl (.inl rfl)), htotal, h.super]
  · rw [hm.used hb, h.bitZero b hb h0]

theorem SameBitmap.counters (h : SameBitmap v s s') (hs : BlocksCounted v s) :
    (∀ g < v.groups, bgFreeBlocksCount (s'.gdesc v g) = bgFreeBlocksCount (s.gdesc v g)) ∧
      s'.sFreeBlocksCount = s.sFreeBlocksCount ∧
      rd32 (s'.disk (sbBlock v.m)) (sbOff v.m + 0x0C) =
        rd32 (s.disk (sbBlock v.m)) (sbOff v.m + 0x0C) := by
  have hfree : ∀ g < v.groups, s'.freeIn v g = s.freeIn v g := fun g hg => by
    rw [Fs.freeIn, Fs.freeIn, h.bitmap g hg]
  have htotal : s'.freeTotal v = s.freeTotal v :=
    Finset.sum_congr rfl fun g hg => hfree g (Finset.mem_range.mp hg)
  refine ⟨fun g hg => ?_, ?_, ?_⟩
  · rw [h.counted.group g hg, hs.group g hg, hfree g hg]
  · rw [h.counted.memory, hs.memory, htotal]
  · rw [h.counted.super, hs.super, htotal]

theorem bitmap_tookBlock (h : BlocksCounted v s) {g i g' : ℕ} (hg : g < v.groups)
    (hg' : g' < v.groups) : (s.tookBlock v g i).disk (v.blockBitmap g') =
      if g' = g then WordBitmap.set (w := 8) (s.disk (v.blockBitmap g)) i
      else s.disk (v.blockBitmap g') := by
  have hc : BitmapChanged v _ _ _ s (s.tookBlock v g i) :=
    bitmapChanged_bitmapEnd h.inv ⟨g, hg, .inl rfl⟩ _ hg (samePointers_wr16 _ (by decide) _)
      fun _ => rfl
  rw [hc.bitmaps _ ⟨g', hg', .inl rfl⟩]
  by_cases he : g' = g
  · rw [if_pos he, if_pos (congrArg _ he)]
  · rw [if_neg he, if_neg fun hb => he (v.blockBitmap_inj _ hg' _ hg hb)]

theorem bitmap_freedBlock (h : BlocksCounted v s) {b g' : ℕ} (hb : b < v.m.sBlocksCount)
    (hg' : g' < v.groups) : (s.freedBlock v b).disk (v.blockBitmap g') =
      if g' = b / v.m.blocksPerGroup then WordBitmap.clear (w := 8)
        (s.disk (v.blockBitmap (b / v.m.blocksPerGroup))) (b % v.m.blocksPerGroup)
      else s.disk (v.blockBitmap g') := by
  have hg := v.blkGroup_lt hb
  have hc : BitmapChanged v _ _ _ s (s.freedBlock v b) :=
    bitmapChanged_bitmapEnd h.inv ⟨_, hg, .inl rfl⟩ _ hg (samePointers_wr16 _ (by decide) _)
      fun _ => rfl
  rw [hc.bitmaps _ ⟨g', hg', .inl rfl⟩]
  by_cases he : g' = b / v.m.blocksPerGroup
  · rw [if_pos he, if_pos (congrArg _ he)]
  · rw [if_neg he, if_neg fun hb => he (v.blockBitmap_inj _ hg' _ hg hb)]

/-! ## Giving back -/

theorem sameBitmap_of_freed {s₂ : Fs} {g i : ℕ} (h : BlocksCounted v s) (hg : g < v.groups)
    (h0 : i ≠ 0) (hf : FirstFreeBlock v s g i) (hm : SameMeta v (s.tookBlock v g i) s₂)
    (hc : s₂.sFreeBlocksCount = (s.tookBlock v g i).sFreeBlocksCount)
    (hfree : freeBlock v.m (g * v.m.blocksPerGroup + i) s₂ = (some (), s')) :
    SameBitmap v s s' := by
  obtain ⟨hi, hlt⟩ := hf.lt
  obtain ⟨-, -, hclear, -⟩ := WordBitmap.firstClear_some hf.2
  have hdiv := WordBitmap.mul_add_div (g := g) hi
  have hmod := WordBitmap.mul_add_mod (g := g) hi
  have hbit : ∀ g' < v.groups, s₂.disk (v.blockBitmap g') =
      if g' = g then WordBitmap.set (w := 8) (s.disk (v.blockBitmap g)) i
      else s.disk (v.blockBitmap g') := fun g' hg' => by
    rw [hm.disk _ (.inl (.inr ⟨g', hg', .inr (.inl rfl)⟩)), bitmap_tookBlock h hg hg']
  have hc₂ : BlocksCounted v s₂ := (h.took hg h0 hf).of_sameMeta hm hc
  have hset : s₂.used v (g * v.m.blocksPerGroup + i) = true := by
    rw [Fs.used, hdiv, hmod, hbit g hg, if_pos rfl, WordBitmap.get_set (by decide),
      decide_eq_true rfl, Bool.true_or]
  have hrun := freeBlock_run hc₂.inv (b := g * v.m.blocksPerGroup + i) (by omega) hlt
  obtain rfl : s₂.freedBlock v (g * v.m.blocksPerGroup + i) = s' :=
    congrArg Prod.snd (hrun.symm.trans hfree)
  refine ⟨fun g' hg' => ?_, hc₂.freed hlt hset (by rwa [hmod])⟩
  rw [bitmap_freedBlock hc₂ hlt hg', hdiv, hmod]
  by_cases he : g' = g
  · rw [if_pos he, he, hbit g hg, if_pos rfl, WordBitmap.clear_set hclear]
  · rw [if_neg he, hbit g' hg', if_neg he]

theorem GivenBack.sameBitmap (h : GivenBack v s s') (hwf : WellFormed v s)
    (hs : BlocksCounted v s) : SameBitmap v s s' := by
  cases h with
  | none hnone =>
    rcases hs.allocBlock_cases with ⟨-, buf, hrun⟩ | ⟨g, i, -, h0, -, hrun⟩
    · cases hnone.symm.trans hrun
      exact ⟨fun _ _ => rfl, hs.of_blkbuf buf⟩
    · have hzero := congrArg Prod.fst (hnone.symm.trans hrun)
      exact absurd (Option.some.inj hzero) (by omega)
  | @freed b s₁ s₂ data halloc hb htable hfree =>
    rcases hs.allocBlock_cases with ⟨-, buf, hrun⟩ | ⟨g, i, hg, h0, hf, hrun⟩
    · exact absurd (Option.some.inj (congrArg Prod.fst (halloc.symm.trans hrun))) hb
    obtain ⟨hbe, rfl⟩ := Prod.mk.inj (halloc.symm.trans hrun)
    cases Option.some.inj hbe
    obtain ⟨hi, hlt⟩ := hf.lt
    obtain ⟨-, -, hclear, -⟩ := WordBitmap.firstClear_some hf.2
    -- the block was free, so it is no metadata
    have hmeta : ¬ v.IsMeta (g * v.m.blocksPerGroup + i) := fun hm => by
      have hused := hwf.metaUsed _ hlt hm
      rw [Fs.used, WordBitmap.mul_add_div hi, WordBitmap.mul_add_mod hi, hclear] at hused
      cases hused
    have hsame := sameMeta_withBlock (s := s.tookBlock v g i) hmeta data
    rcases htable with rfl | hfull
    · exact sameBitmap_of_freed hs hg h0 hf hsame rfl hfree
    · have hc₁ := (hs.took hg h0 hf).of_sameMeta hsame rfl
      rcases hc₁.allocBlock_cases with ⟨-, buf, hrun₂⟩ | ⟨g', i', -, h0', -, hrun₂⟩
      · cases hfull.symm.trans hrun₂
        have hsame' : SameMeta v (s.tookBlock v g i) { Fs.withBlock _ _ data with blkbuf := buf } :=
          ⟨hsame.disk, hsame.fault⟩
        exact sameBitmap_of_freed hs hg h0 hf hsame' rfl hfree
      · have hzero := congrArg Prod.fst (hfull.symm.trans hrun₂)
        exact absurd (Option.some.inj hzero) (by omega)

/-! ## The call -/

/-- Everything that lasts is as it was: bitmaps, counters, inodes and directories. -/
structure Untouched (v : Volume) (s s' : Fs) : Prop where
  bitmap : ∀ g < v.groups, s'.disk (v.blockBitmap g) = s.disk (v.blockBitmap g)
  group : ∀ g < v.groups, bgFreeBlocksCount (s'.gdesc v g) = bgFreeBlocksCount (s.gdesc v g)
  memory : s'.sFreeBlocksCount = s.sFreeBlocksCount
  super : rd32 (s'.disk (sbBlock v.m)) (sbOff v.m + 0x0C) =
    rd32 (s.disk (sbBlock v.m)) (sbOff v.m + 0x0C)
  inode : ∀ k, v.IsIno k → s'.inode v k = s.inode v k
  entries : ∀ k, s.Live v k → DirOk v s (s.inode v k) →
    DirOk v s' (s'.inode v k) ∧ s'.entries v (s'.inode v k) = s.entries v (s.inode v k)

theorem SameBitmap.untouched (h : SameBitmap v s s') (hs : BlocksCounted v s)
    (hout : Outside v ∅ s s') : Untouched v s s' := by
  obtain ⟨hgroup, hmemory, hsuper⟩ := h.counters hs
  exact ⟨h.bitmap, hgroup, hmemory, hsuper, fun k hk => hout.record k hk (Set.notMem_empty k),
    fun k hk hd => hout.dir hk (Set.notMem_empty k) hd⟩

/-- The sample volume with every block in use and a directory without a free record. -/
def fullFs : Fs :=
  { sampleFs with
    disk := update (update (update
      (update sampleDisk 9 (wr16 (sampleDisk 9) 28 1000)) 1 zero)
      2 (wr16 (sampleDisk 2) 12 0)) 3 fun _ => 0xFF
    sFreeBlocksCount := 0 }

theorem fullFs_counted : BlocksCounted sampleVolume fullFs where
  inv := ⟨fun _ => rfl, by decide, by decide, by decide⟩
  group := by decide +kernel
  memory := by decide +kernel
  super := by decide +kernel
  bitZero := by
    have hall : ∀ b < 64, b % 8192 = 0 → fullFs.used sampleVolume b = true := by decide +kernel
    exact hall

theorem fullFs_root : WellFormed sampleVolume fullFs ∧ fullFs.Live sampleVolume 2 ∧
    DirOk sampleVolume fullFs (fullFs.inode sampleVolume 2) := by
  have hinv := sampleRoot_mapInv
  -- the directory first, then the bitmap and the counters
  have hed : Edited sampleVolume 2 0 _ sampleFs
      { sampleFs with disk := update sampleDisk 9 (wr16 (sampleDisk 9) 28 1000) } :=
    hinv.wf.editDir hinv.live hinv.dir (by decide) ⟨rfl, rfl, rfl, rfl⟩
      (by rw [sampleFs_inode_root]; rfl)
  have hused : ∀ b < 64, fullFs.used sampleVolume b = true := by decide +kernel
  have hout : Outside sampleVolume ∅
      { sampleFs with disk := update sampleDisk 9 (wr16 (sampleDisk 9) 28 1000) }
      fullFs := by
    refine outside_of_frame hed.outside.wf fullFs_counted.inv (fun b hb _ => hused b hb)
      (fun _ _ => rfl) (fun b hb _ hm => ?_) rfl
    have h1 : b ≠ 1 := fun he => hm (.inl he)
    have h2 : b ≠ 2 := fun he => hm (.inr ⟨0, by decide, .inl he⟩)
    have h3 : b ≠ 3 := fun he => hm (.inr ⟨0, by decide, .inr (.inl he)⟩)
    simp only [fullFs, update_of_ne h1, update_of_ne h2,
      update_of_ne h3]
  have hdir := hed.dir hinv.dir ⟨[0, 12, 24], by decide +kernel⟩
  exact ⟨hout.wf, hout.live hed.live (Set.notMem_empty 2),
    (hout.dir hed.live (Set.notMem_empty 2) hdir).1⟩

end BananaOS.Ext2
