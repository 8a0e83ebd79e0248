import BananaOS.Ext2.Alloc

/-!
# Well-formed volumes

A `Volume` is a set of mount parameters together with the places of its metadata: for each group its
two bitmaps and its inode table, all in range and none on top of another.  Inode records are where
`ext2_read_inode` looks for them, with its 32-bit arithmetic (`recBlock`, `recOff`).  These facts do
not change while the volume is mounted, so they are fields and need no preservation proof.
-/

namespace BananaOS.Ext2

open Function Bytes FailState

structure Volume where
  m : Mount
  /-- The number of groups with a descriptor. -/
  groups : ℕ
  blockBitmap : ℕ → ℕ
  inodeBitmap : ℕ → ℕ
  inodeTable : ℕ → ℕ
  mounted : m.mounted = true
  blkSize_cases : m.blkSize = 1024 ∨ m.blkSize = 2048 ∨ m.blkSize = 4096
  inoSize_eq : m.inoSize = 128
  ipg_pos : 0 < m.inodesPerGroup
  ipg_le : m.inodesPerGroup ≤ 8 * m.blkSize
  bpg_pos : 0 < m.blocksPerGroup
  bpg_le : m.blocksPerGroup ≤ 8 * m.blkSize
  /-- Sector numbers have 28 bits. -/
  blocks_fit : m.sBlocksCount * (m.blkSize / 512) ≤ 2 ^ 28
  /-- `ext2_alloc_inode` returns an `int`. -/
  inodes_fit : m.sInodesCount + m.inodesPerGroup ≤ 2 ^ 31
  blocks_le : m.sBlocksCount ≤ groups * m.blocksPerGroup
  inodes_le : m.sInodesCount ≤ groups * m.inodesPerGroup
  sb_lt : sbBlock m < m.sBlocksCount
  gdesc_lt : ∀ g < groups, gdescBlock m g < m.sBlocksCount
  blockBitmap_lt : ∀ g < groups, blockBitmap g < m.sBlocksCount
  inodeBitmap_lt : ∀ g < groups, inodeBitmap g < m.sBlocksCount
  rec_lt : ∀ n, 0 < n → n ≤ m.sInodesCount →
    inoOff m (inodeTable (inoGroup m n)) n / m.blkSize < m.sBlocksCount
  /-- The descriptors and the counters of the superblock may share a block, but no byte. -/
  gdesc_sb : ∀ g < groups, gdescBlock m g = sbBlock m →
    gdescOff m g + 32 ≤ sbOff m + 12 ∨ sbOff m + 20 ≤ gdescOff m g
  blockBitmap_inj : ∀ g < groups, ∀ g' < groups, blockBitmap g = blockBitmap g' → g = g'
  inodeBitmap_inj : ∀ g < groups, ∀ g' < groups, inodeBitmap g = inodeBitmap g' → g = g'
  rec_inj : ∀ n n', 0 < n → n ≤ m.sInodesCount → 0 < n' → n' ≤ m.sInodesCount →
    inoOff m (inodeTable (inoGroup m n)) n = inoOff m (inodeTable (inoGroup m n')) n' → n = n'
  blockBitmap_ne_sb : ∀ g < groups, blockBitmap g ≠ sbBlock m
  inodeBitmap_ne_sb : ∀ g < groups, inodeBitmap g ≠ sbBlock m
  blockBitmap_ne_gdesc : ∀ g < groups, ∀ g' < groups, blockBitmap g ≠ gdescBlock m g'
  inodeBitmap_ne_gdesc : ∀ g < groups, ∀ g' < groups, inodeBitmap g ≠ gdescBlock m g'
  blockBitmap_ne_inodeBitmap : ∀ g < groups, ∀ g' < groups, blockBitmap g ≠ inodeBitmap g'
  rec_ne_sb : ∀ n, 0 < n → n ≤ m.sInodesCount →
    inoOff m (inodeTable (inoGroup m n)) n / m.blkSize ≠ sbBlock m
  rec_ne_gdesc : ∀ n, 0 < n → n ≤ m.sInodesCount → ∀ g < groups,
    inoOff m (inodeTable (inoGroup m n)) n / m.blkSize ≠ gdescBlock m g
  rec_ne_blockBitmap : ∀ n, 0 < n → n ≤ m.sInodesCount → ∀ g < groups,
    inoOff m (inodeTable (inoGroup m n)) n / m.blkSize ≠ blockBitmap g
  rec_ne_inodeBitmap : ∀ n, 0 < n → n ≤ m.sInodesCount → ∀ g < groups,
    inoOff m (inodeTable (inoGroup m n)) n / m.blkSize ≠ inodeBitmap g

variable {b n g g' : ℕ}

namespace Volume

variable (v : Volume)

def IsIno (n : ℕ) : Prop := 0 < n ∧ n ≤ v.m.sInodesCount

def recBlock (n : ℕ) : ℕ := inoOff v.m (v.inodeTable (inoGroup v.m n)) n / v.m.blkSize

def recOff (n : ℕ) : ℕ := inoOff v.m (v.inodeTable (inoGroup v.m n)) n % v.m.blkSize

/-- The blocks the allocators write: superblock, descriptors and bitmaps. -/
def IsAllocMeta (b : ℕ) : Prop :=
  b = sbBlock v.m ∨
    ∃ g < v.groups, b = gdescBlock v.m g ∨ b = v.blockBitmap g ∨ b = v.inodeBitmap g

def IsBitmap (b : ℕ) : Prop := ∃ g < v.groups, b = v.blockBitmap g ∨ b = v.inodeBitmap g

def IsMeta (b : ℕ) : Prop := v.IsAllocMeta b ∨ ∃ n, v.IsIno n ∧ b = v.recBlock n

theorem blkSize_pos : 0 < v.m.blkSize := by
  rcases v.blkSize_cases with h | h | h <;> omega

theorem physBlock_of_lt (hb : b < v.m.sBlocksCount) : physBlock v.m b = b := by
  have hfit := v.blocks_fit
  unfold physBlock
  rcases v.blkSize_cases with h | h | h <;> rw [h] at hfit ⊢ <;> omega

theorem inoGroup_lt (hn : v.IsIno n) : inoGroup v.m n < v.groups := by
  obtain ⟨h0, h1⟩ := hn
  have h2 := v.inodes_le
  unfold inoGroup
  rw [Nat.div_lt_iff_lt_mul v.ipg_pos]
  omega

theorem blkGroup_lt (hb : b < v.m.sBlocksCount) : b / v.m.blocksPerGroup < v.groups := by
  have h2 := v.blocks_le
  rw [Nat.div_lt_iff_lt_mul v.bpg_pos]
  omega

theorem recOff_disjoint {n' : ℕ} (hn : v.IsIno n) (hn' : v.IsIno n') (hne : n ≠ n')
    (hb : v.recBlock n = v.recBlock n') :
    v.recOff n + 128 ≤ v.recOff n' ∨ v.recOff n' + 128 ≤ v.recOff n := by
  have hoff : inoOff v.m (v.inodeTable (inoGroup v.m n)) n ≠
      inoOff v.m (v.inodeTable (inoGroup v.m n')) n' :=
    fun he => hne (v.rec_inj n n' hn.1 hn.2 hn'.1 hn'.2 he)
  unfold recBlock at hb
  unfold recOff
  have h1 : inoOff v.m (v.inodeTable (inoGroup v.m n)) n % 128 = 0 := by
    unfold inoOff
    rw [v.inoSize_eq]
    rcases v.blkSize_cases with h | h | h <;> rw [h] <;> omega
  have h2 : inoOff v.m (v.inodeTable (inoGroup v.m n')) n' % 128 = 0 := by
    unfold inoOff
    rw [v.inoSize_eq]
    rcases v.blkSize_cases with h | h | h <;> rw [h] <;> omega
  generalize inoOff v.m (v.inodeTable (inoGroup v.m n)) n = x at *
  generalize inoOff v.m (v.inodeTable (inoGroup v.m n')) n' = y at *
  rcases v.blkSize_cases with h | h | h <;> rw [h] at hb ⊢ <;> omega

theorem gdescOff_disjoint (hne : g ≠ g') (hb : gdescBlock v.m g = gdescBlock v.m g') :
    gdescOff v.m g + 32 ≤ gdescOff v.m g' ∨ gdescOff v.m g' + 32 ≤ gdescOff v.m g := by
  unfold gdescBlock at hb
  unfold gdescOff
  rcases v.blkSize_cases with h | h | h <;> rw [h] at hb ⊢ <;> omega

theorem IsBitmap.ne_gdesc {v : Volume} (hb : v.IsBitmap b) (hg : g < v.groups) :
    b ≠ gdescBlock v.m g := by
  obtain ⟨g', hg', rfl | rfl⟩ := hb
  · exact v.blockBitmap_ne_gdesc g' hg' g hg
  · exact v.inodeBitmap_ne_gdesc g' hg' g hg

theorem IsBitmap.ne_sb {v : Volume} (hb : v.IsBitmap b) : b ≠ sbBlock v.m := by
  obtain ⟨g, hg, rfl | rfl⟩ := hb
  · exact v.blockBitmap_ne_sb g hg
  · exact v.inodeBitmap_ne_sb g hg

theorem IsBitmap.allocMeta {v : Volume} (hb : v.IsBitmap b) : v.IsAllocMeta b := by
  obtain ⟨g, hg, h⟩ := hb
  exact .inr ⟨g, hg, .inr h⟩

theorem rec_not_allocMeta (hn : v.IsIno n) : ¬ v.IsAllocMeta (v.recBlock n) := by
  rintro (h | ⟨g, hg, h | h | h⟩)
  · exact v.rec_ne_sb n hn.1 hn.2 h
  · exact v.rec_ne_gdesc n hn.1 hn.2 g hg h
  · exact v.rec_ne_blockBitmap n hn.1 hn.2 g hg h
  · exact v.rec_ne_inodeBitmap n hn.1 hn.2 g hg h

end Volume

/-! ## Reading the state -/

variable (v : Volume)

def Fs.gdesc (s : Fs) (v : Volume) (g : ℕ) : Bytes :=
  drop (s.disk (gdescBlock v.m g)) (gdescOff v.m g)

def Fs.used (s : Fs) (v : Volume) (b : ℕ) : Bool :=
  WordBitmap.get (w := 8) (s.disk (v.blockBitmap (b / v.m.blocksPerGroup)))
    (b % v.m.blocksPerGroup)

def Fs.inoBit (s : Fs) (v : Volume) (n : ℕ) : Bool :=
  WordBitmap.get (w := 8) (s.disk (v.inodeBitmap (inoGroup v.m n))) (inoIndex v.m n)

def Fs.inode (s : Fs) (v : Volume) (n : ℕ) : Inode :=
  Inode.decode (s.disk (v.recBlock n)) (v.recOff n)

/-- Transfers succeed, and the descriptors name the places of the volume. -/
structure MetaInv (v : Volume) (s : Fs) : Prop where
  healthy : ∀ b, s.fault b = none
  blockBitmap : ∀ g < v.groups, bgBlockBitmap (s.gdesc v g) = v.blockBitmap g
  inodeBitmap : ∀ g < v.groups, bgInodeBitmap (s.gdesc v g) = v.inodeBitmap g
  inodeTable : ∀ g < v.groups, bgInodeTable (s.gdesc v g) = v.inodeTable g

theorem MetaInv.of_gdesc {v : Volume} {s s' : Fs} (h : MetaInv v s) (hf : s'.fault = s.fault)
    (hg : ∀ g < v.groups, bgBlockBitmap (s'.gdesc v g) = bgBlockBitmap (s.gdesc v g) ∧
      bgInodeBitmap (s'.gdesc v g) = bgInodeBitmap (s.gdesc v g) ∧
      bgInodeTable (s'.gdesc v g) = bgInodeTable (s.gdesc v g)) : MetaInv v s' where
  healthy b := by rw [hf]; exact h.healthy b
  blockBitmap g hgg := (hg g hgg).1.trans (h.blockBitmap g hgg)
  inodeBitmap g hgg := (hg g hgg).2.1.trans (h.inodeBitmap g hgg)
  inodeTable g hgg := (hg g hgg).2.2.trans (h.inodeTable g hgg)

/-! ## Single blocks -/

section Run

variable {v} {s : Fs}

section

variable (hh : ∀ b, s.fault b = none)

include hh

/-! A transfer succeeds for any block number, in range or not. -/

theorem readBlk_healthy (m : Mount) (b : ℕ) :
    readBlk m b s = (some (), { s with blkbuf := s.disk (physBlock m b) }) := by
  unfold readBlk
  rw [hh]

theorem readInd_healthy (m : Mount) (b : ℕ) :
    readInd m b s = (some (), { s with indbuf := s.disk (physBlock m b) }) := by
  unfold readInd
  rw [hh]

theorem writeBlk_healthy (v : Volume) (b : ℕ) :
    writeBlk v.m b s =
      (some (), { s with disk := update s.disk (physBlock v.m b) s.blkbuf }) := by
  unfold writeBlk writeBlock
  rw [hh, if_neg (by rw [v.mounted]; decide)]

/-! In range, it transfers the block of that number. -/

variable {b : ℕ} (hb : b < v.m.sBlocksCount)

include hb

theorem readBlk_run : readBlk v.m b s = (some (), { s with blkbuf := s.disk b }) := by
  unfold readBlk
  rw [v.physBlock_of_lt hb, hh b]

theorem readInd_run : readInd v.m b s = (some (), { s with indbuf := s.disk b }) := by
  unfold readInd
  rw [v.physBlock_of_lt hb, hh b]

theorem writeBlock_run (data : Bytes) :
    writeBlock v.m b data s = (some (), { s with disk := update s.disk b data }) := by
  unfold writeBlock
  rw [v.physBlock_of_lt hb, hh b, if_neg (by rw [v.mounted]; decide)]

theorem writeBlk_run : writeBlk v.m b s = (some (), { s with disk := update s.disk b s.blkbuf }) :=
  writeBlock_run hh hb s.blkbuf

theorem writeInd_run : writeInd v.m b s = (some (), { s with disk := update s.disk b s.indbuf }) :=
  writeBlock_run hh hb s.indbuf

end

theorem readGdesc_run (hi : MetaInv v s) (hg : g < v.groups) :
    readGdesc v.m g s = (some (s.gdesc v g), { s with blkbuf := s.disk (gdescBlock v.m g) }) := by
  unfold readGdesc
  rw [bind_of_some (readBlk_run hi.healthy (v.gdesc_lt g hg))]
  rfl

def Fs.withGdesc (s : Fs) (v : Volume) (g : ℕ) (gd : Bytes) : Fs :=
  { s with
    blkbuf := copyIn (s.disk (gdescBlock v.m g)) (gdescOff v.m g) 32 gd
    disk := update s.disk (gdescBlock v.m g)
      (copyIn (s.disk (gdescBlock v.m g)) (gdescOff v.m g) 32 gd) }

theorem writeGdesc_run (hi : MetaInv v s) (hg : g < v.groups) (gd : Bytes) :
    writeGdesc v.m g gd s = (some (), s.withGdesc v g gd) := by
  unfold writeGdesc
  rw [bind_of_some (readBlk_run hi.healthy (v.gdesc_lt g hg))]
  unfold editBlk
  rw [modify_bind_run]
  refine writeBlk_run (v := v) ?_ (v.gdesc_lt g hg)
  exact hi.healthy

def Fs.withCounters (s : Fs) (v : Volume) : Fs :=
  { s with
    disk := update s.disk (sbBlock v.m)
      (wr32 (wr32 (s.disk (sbBlock v.m)) (sbOff v.m + 0x0C) s.sFreeBlocksCount)
        (sbOff v.m + 0x10) s.sFreeInodesCount) }

theorem writeSuperblock_run (hi : MetaInv v s) :
    writeSuperblock v.m s = (some (), s.withCounters v) := by
  unfold writeSuperblock
  rw [hi.healthy]
  rfl

def Fs.withBlock (s : Fs) (b : ℕ) (data : Bytes) : Fs :=
  { s with blkbuf := data, disk := update s.disk b data }

theorem bitmapClear_run (hi : MetaInv v s) {bm : ℕ} (hbm : bm < v.m.sBlocksCount) (bit : ℕ) :
    bitmapClear v.m bm bit s =
      (some (), s.withBlock bm (WordBitmap.clear (w := 8) (s.disk bm) bit)) := by
  unfold bitmapClear
  rw [bind_of_some (readBlk_run hi.healthy hbm)]
  unfold editBlk
  rw [modify_bind_run]
  refine writeBlk_run (v := v) ?_ hbm
  exact hi.healthy

end Run

/-! ## What metadata writes leave alone -/

/-- A step that touches nothing but the allocators' metadata, and keeps its invariant. -/
structure MetaStep (v : Volume) (s s' : Fs) : Prop where
  inv : MetaInv v s'
  data : ∀ b, ¬ v.IsAllocMeta b → s'.disk b = s.disk b
  indbuf : s'.indbuf = s.indbuf
  dcache : s'.dcache = s.dcache
  dcacheNext : s'.dcacheNext = s.dcacheNext
  now : s'.now = s.now

section Step

variable {v} {s s' s'' : Fs}

theorem MetaStep.trans (h : MetaStep v s s') (h' : MetaStep v s' s'') : MetaStep v s s'' :=
  ⟨h'.inv, fun b hb => (h'.data b hb).trans (h.data b hb), h'.indbuf.trans h.indbuf,
    h'.dcache.trans h.dcache, h'.dcacheNext.trans h.dcacheNext, h'.now.trans h.now⟩

theorem MetaStep.inode (h : MetaStep v s s') (hn : v.IsIno n) : s'.inode v n = s.inode v n := by
  unfold Fs.inode
  rw [h.data _ (v.rec_not_allocMeta hn)]

def SameBitmaps (v : Volume) (s s' : Fs) : Prop :=
  ∀ b, v.IsBitmap b → s'.disk b = s.disk b

structure SamePointers (gd gd' : Bytes) : Prop where
  blockBitmap : bgBlockBitmap gd' = bgBlockBitmap gd
  inodeBitmap : bgInodeBitmap gd' = bgInodeBitmap gd
  inodeTable : bgInodeTable gd' = bgInodeTable gd

theorem samePointers_wr16 (gd : Bytes) {o : ℕ} (ho : 12 ≤ o) (x : ℕ) :
    SamePointers gd (wr16 gd o x) :=
  ⟨rd32_wr16_of_disjoint (by omega), rd32_wr16_of_disjoint (by omega),
    rd32_wr16_of_disjoint (by omega)⟩

theorem gdesc_withGdesc (s : Fs) (gd : Bytes) {k : ℕ} (hk : k + 4 ≤ 32) :
    rd32 ((s.withGdesc v g gd).gdesc v g') k =
      if g' = g then rd32 gd k else rd32 (s.gdesc v g') k := by
  unfold Fs.gdesc Fs.withGdesc
  simp only [rd32_drop]
  by_cases hg : g' = g
  · rw [if_pos hg, hg, update_self]
    exact rd32_copyIn hk
  · rw [if_neg hg]
    by_cases hb : gdescBlock v.m g' = gdescBlock v.m g
    · have hd := v.gdescOff_disjoint hg hb
      rw [hb, update_self]
      exact rd32_copyIn_of_disjoint (by omega)
    · rw [update_of_ne hb]

theorem metaStep_withGdesc (hi : MetaInv v s) (hg : g < v.groups) {gd : Bytes}
    (hp : SamePointers (s.gdesc v g) gd) :
    MetaStep v s (s.withGdesc v g gd) ∧ SameBitmaps v s (s.withGdesc v g gd) := by
  have hout : ∀ b, b ≠ gdescBlock v.m g → (s.withGdesc v g gd).disk b = s.disk b :=
    fun b hb => update_of_ne hb _ _
  refine ⟨⟨hi.of_gdesc rfl fun g' _ => ?_, fun b hb => hout b ?_, rfl, rfl, rfl, rfl⟩,
    fun b hb => hout b (hb.ne_gdesc hg)⟩
  · unfold bgBlockBitmap bgInodeBitmap bgInodeTable
    rw [gdesc_withGdesc s gd (by omega), gdesc_withGdesc s gd (by omega),
      gdesc_withGdesc s gd (by omega)]
    by_cases he : g' = g
    · subst he
      simp only [if_true]
      exact ⟨hp.blockBitmap, hp.inodeBitmap, hp.inodeTable⟩
    · simp only [if_neg he]
      exact ⟨trivial, trivial, trivial⟩
  · exact fun he => hb (.inr ⟨g, hg, .inl he⟩)

theorem metaStep_withCounters (hi : MetaInv v s) :
    MetaStep v s (s.withCounters v) ∧ SameBitmaps v s (s.withCounters v) := by
  have hout : ∀ b, b ≠ sbBlock v.m → (s.withCounters v).disk b = s.disk b :=
    fun b hb => update_of_ne hb _ _
  -- a descriptor in the same block shares no byte with the counters
  have hdesc : ∀ g < v.groups, ∀ k, k + 4 ≤ 32 →
      rd32 ((s.withCounters v).gdesc v g) k = rd32 (s.gdesc v g) k := by
    intro g hg k hk
    unfold Fs.gdesc
    rw [rd32_drop, rd32_drop]
    by_cases hb : gdescBlock v.m g = sbBlock v.m
    · have hd := v.gdesc_sb g hg hb
      unfold Fs.withCounters
      simp only [hb, update_self]
      rw [rd32_wr32_of_disjoint (by omega), rd32_wr32_of_disjoint (by omega)]
    · rw [hout _ hb]
  refine ⟨⟨hi.of_gdesc rfl fun g hg => ?_, fun b hb => hout b fun he => hb (.inl he), rfl, rfl,
    rfl, rfl⟩, fun b hb => hout b hb.ne_sb⟩
  exact ⟨hdesc g hg 0 (by omega), hdesc g hg 4 (by omega), hdesc g hg 8 (by omega)⟩

theorem metaStep_withBlock (hi : MetaInv v s) {bm : ℕ} (hbm : v.IsBitmap bm) (data : Bytes) :
    MetaStep v s (s.withBlock bm data) := by
  have hout : ∀ b, b ≠ bm → (s.withBlock bm data).disk b = s.disk b :=
    fun b hb => update_of_ne hb _ _
  refine ⟨hi.of_gdesc rfl fun g hg => ?_, fun b hb => hout b ?_, rfl, rfl, rfl, rfl⟩
  · have he : (s.withBlock bm data).gdesc v g = s.gdesc v g := by
      unfold Fs.gdesc
      rw [hout _ (hbm.ne_gdesc hg).symm]
    rw [he]
    exact ⟨rfl, rfl, rfl⟩
  · rintro rfl
    exact hb hbm.allocMeta

theorem MetaInv.of_disk (hi : MetaInv v s) (hd : s'.disk = s.disk) (hf : s'.fault = s.fault) :
    MetaInv v s' := by
  refine hi.of_gdesc hf fun g _ => ?_
  unfold Fs.gdesc
  rw [hd]
  exact ⟨rfl, rfl, rfl⟩

def CountersOnly (f : Fs → Fs) : Prop :=
  ∀ s, f s = { s with
    sFreeBlocksCount := (f s).sFreeBlocksCount
    sFreeInodesCount := (f s).sFreeInodesCount }

/-- **The end of every allocator function**: a bitmap block has been written, and descriptor,
counters and superblock follow. -/
structure BitmapChanged (v : Volume) (bm : ℕ) (data : Bytes) (f : Fs → Fs) (s s' : Fs) : Prop where
  step : MetaStep v s s'
  bitmaps : ∀ b, v.IsBitmap b → s'.disk b = if b = bm then data else s.disk b
  counters : ∃ t : Fs, t.sFreeBlocksCount = s.sFreeBlocksCount ∧
    t.sFreeInodesCount = s.sFreeInodesCount ∧ s'.sFreeBlocksCount = (f t).sFreeBlocksCount ∧
    s'.sFreeInodesCount = (f t).sFreeInodesCount

/-- A bitmap block, a descriptor, the counters and the superblock have been written. -/
def Fs.bitmapEnd (s : Fs) (v : Volume) (bm : ℕ) (data : Bytes) (g : ℕ) (gd : Bytes) (f : Fs → Fs) :
    Fs :=
  (f ((s.withBlock bm data).withGdesc v g gd)).withCounters v

section BitmapEnd

variable {bm g : ℕ} {data gd : Bytes} {f : Fs → Fs}

theorem gdesc_withBlock (hbm : v.IsBitmap bm) (data : Bytes) (hg : g < v.groups) :
    (s.withBlock bm data).gdesc v g = s.gdesc v g :=
  congrArg (fun p => drop p (gdescOff v.m g)) (update_of_ne (hbm.ne_gdesc hg).symm _ _)

theorem bitmapEnd_run {β : Type} (hi : MetaInv v s) (hbm : v.IsBitmap bm) (data : Bytes)
    (hg : g < v.groups) (hp : SamePointers (s.gdesc v g) gd) (hf : CountersOnly f) (k : Ext2M β) :
    (writeGdesc v.m g gd >>= fun _ => modify f >>= fun _ =>
      attempt (writeSuperblock v.m) >>= fun _ => k) (s.withBlock bm data) =
      k (s.bitmapEnd v bm data g gd f) := by
  have hm0 := metaStep_withBlock hi hbm data
  rw [← gdesc_withBlock hbm data hg] at hp
  obtain ⟨hm1, -⟩ := metaStep_withGdesc hm0.inv hg hp
  rw [bind_of_some (writeGdesc_run hm0.inv hg gd), modify_bind_run, attempt_bind_run,
    writeSuperblock_run (hm1.inv.of_disk (by rw [hf]) (by rw [hf]))]
  rfl

theorem bitmapChanged_bitmapEnd (hi : MetaInv v s) (hbm : v.IsBitmap bm) (data : Bytes)
    (hg : g < v.groups) (hp : SamePointers (s.gdesc v g) gd) (hf : CountersOnly f) :
    BitmapChanged v bm data f s (s.bitmapEnd v bm data g gd f) := by
  have hm0 := metaStep_withBlock hi hbm data
  rw [← gdesc_withBlock hbm data hg] at hp
  obtain ⟨hm1, hb1⟩ := metaStep_withGdesc hm0.inv hg hp
  set s1 := (s.withBlock bm data).withGdesc v g gd with hs1
  have hi1 : MetaInv v (f s1) := hm1.inv.of_disk (by rw [hf s1]) (by rw [hf s1])
  obtain ⟨hm2, hb2⟩ := metaStep_withCounters hi1
  have hstep : MetaStep v s1 ((f s1).withCounters v) := by
    refine ⟨hm2.inv, fun b hnb => (hm2.data b hnb).trans (by rw [hf s1]), ?_, ?_, ?_, ?_⟩
    · exact hm2.indbuf.trans (by rw [hf s1])
    · exact hm2.dcache.trans (by rw [hf s1])
    · exact hm2.dcacheNext.trans (by rw [hf s1])
    · exact hm2.now.trans (by rw [hf s1])
  refine ⟨(hm0.trans hm1).trans hstep, fun b hb => ?_, s1, rfl, rfl, rfl, rfl⟩
  refine (hb2 b hb).trans ?_
  rw [hf s1]
  exact (hb1 b hb).trans (update_apply s.disk bm data b)

theorem bitmapChanged_run {β : Type} (hi : MetaInv v s) (hbm : v.IsBitmap bm)
    (data : Bytes) (hg : g < v.groups) (hp : SamePointers (s.gdesc v g) gd)
    (hf : CountersOnly f) (k : Ext2M β) :
    ∃ s', (writeGdesc v.m g gd >>= fun _ => modify f >>= fun _ =>
      attempt (writeSuperblock v.m) >>= fun _ => k) (s.withBlock bm data) = k s' ∧
      BitmapChanged v bm data f s s' :=
  ⟨_, bitmapEnd_run hi hbm data hg hp hf k, bitmapChanged_bitmapEnd hi hbm data hg hp hf⟩

theorem freeBlocks_bitmapEnd (hbm : v.IsBitmap bm) (data : Bytes) (gd : Bytes) (hf : CountersOnly f)
    (hg' : g' < v.groups) :
    bgFreeBlocksCount ((s.bitmapEnd v bm data g gd f).gdesc v g') =
      if g' = g then bgFreeBlocksCount gd else bgFreeBlocksCount (s.gdesc v g') := by
  have hsuper : bgFreeBlocksCount ((s.bitmapEnd v bm data g gd f).gdesc v g') =
      bgFreeBlocksCount (((s.withBlock bm data).withGdesc v g gd).gdesc v g') := by
    simp only [bgFreeBlocksCount, Fs.bitmapEnd, Fs.gdesc, Fs.withCounters, rd16_drop]
    rw [hf ((s.withBlock bm data).withGdesc v g gd)]
    by_cases hb : gdescBlock v.m g' = sbBlock v.m
    · -- the descriptor and the counters of the superblock share no byte
      have hd := v.gdesc_sb g' hg' hb
      rw [hb, update_self, rd16_wr32_of_disjoint (by omega),
        rd16_wr32_of_disjoint (by omega)]
    · rw [update_of_ne hb]
  have hold := congrArg bgFreeBlocksCount (gdesc_withBlock (s := s) hbm data hg')
  rw [hsuper, ← hold]
  simp only [bgFreeBlocksCount, Fs.gdesc, Fs.withGdesc, rd16_drop]
  by_cases hg : g' = g
  · rw [if_pos hg, hg, update_self]
    exact rd16_copyIn (by decide)
  · rw [if_neg hg]
    by_cases hb : gdescBlock v.m g' = gdescBlock v.m g
    · have hd := v.gdescOff_disjoint hg hb
      rw [hb, update_self]
      exact rd16_copyIn_of_disjoint (by omega)
    · rw [update_of_ne hb]

theorem superFree_bitmapEnd (s : Fs) (v : Volume) (bm : ℕ) (data : Bytes) (g : ℕ) (gd : Bytes)
    (f : Fs → Fs) :
    rd32 ((s.bitmapEnd v bm data g gd f).disk (sbBlock v.m)) (sbOff v.m + 0x0C) =
      (s.bitmapEnd v bm data g gd f).sFreeBlocksCount % 2 ^ 32 := by
  simp only [Fs.bitmapEnd, Fs.withCounters, update_self]
  rw [rd32_wr32_of_disjoint (by omega), rd32_wr32]

end BitmapEnd

theorem bits_of_inodeBitmap (hg : g < v.groups) {data : Bytes}
    (h : ∀ b, v.IsBitmap b → s'.disk b = if b = v.inodeBitmap g then data else s.disk b) :
    (∀ b < v.m.sBlocksCount, s'.used v b = s.used v b) ∧
    ∀ k, v.IsIno k → s'.inoBit v k =
      if inoGroup v.m k = g then WordBitmap.get (w := 8) data (inoIndex v.m k)
      else s.inoBit v k := by
  constructor
  · intro b hb
    have hgb := v.blkGroup_lt hb
    unfold Fs.used
    rw [h _ ⟨_, hgb, .inl rfl⟩, if_neg (v.blockBitmap_ne_inodeBitmap _ hgb g hg)]
  · intro k hk
    have hgk := v.inoGroup_lt hk
    unfold Fs.inoBit
    rw [h _ ⟨_, hgk, .inr rfl⟩]
    by_cases he : inoGroup v.m k = g
    · rw [he, if_pos rfl, if_pos rfl]
    · rw [if_neg he, if_neg fun hc => he (v.inodeBitmap_inj _ hgk _ hg hc)]

theorem bits_of_blockBitmap (hg : g < v.groups) {data : Bytes}
    (h : ∀ b, v.IsBitmap b → s'.disk b = if b = v.blockBitmap g then data else s.disk b) :
    (∀ k, v.IsIno k → s'.inoBit v k = s.inoBit v k) ∧
    ∀ b < v.m.sBlocksCount, s'.used v b =
      if b / v.m.blocksPerGroup = g then
        WordBitmap.get (w := 8) data (b % v.m.blocksPerGroup)
      else s.used v b := by
  constructor
  · intro k hk
    have hgk := v.inoGroup_lt hk
    unfold Fs.inoBit
    rw [h _ ⟨_, hgk, .inr rfl⟩, if_neg (v.blockBitmap_ne_inodeBitmap g hg _ hgk).symm]
  · intro b hb
    have hgb := v.blkGroup_lt hb
    unfold Fs.used
    rw [h _ ⟨_, hgb, .inl rfl⟩]
    by_cases he : b / v.m.blocksPerGroup = g
    · rw [he, if_pos rfl, if_pos rfl]
    · rw [if_neg he, if_neg fun hc => he (v.blockBitmap_inj _ hgb _ hg hc)]

end Step

/-! ## A small volume

One group of 64 blocks of 1024 bytes and 32 inodes, with a root directory and one file. -/

/-- Blocks 1 to 8 are superblock, descriptors, the two bitmaps and the inode table. -/
def sampleVolume : Volume where
  m := ⟨true, 1024, 128, 32, 8192, 32, 64⟩
  groups := 1
  blockBitmap := fun _ => 3
  inodeBitmap := fun _ => 4
  inodeTable := fun _ => 5
  mounted := rfl
  blkSize_cases := .inl rfl
  inoSize_eq := rfl
  ipg_pos := by decide
  ipg_le := by decide
  bpg_pos := by decide
  bpg_le := by decide
  blocks_fit := by decide
  inodes_fit := by decide
  blocks_le := by decide
  inodes_le := by decide
  sb_lt := by decide
  gdesc_lt := by decide
  blockBitmap_lt := by decide
  inodeBitmap_lt := by decide
  rec_lt := by
    intro n _ _
    simp only [inoOff, inoIndex]
    omega
  gdesc_sb := by decide
  blockBitmap_inj := by omega
  inodeBitmap_inj := by omega
  rec_inj := by
    intro n n' h1 h2 h3 h4
    simp only [inoOff, inoIndex] at *
    omega
  blockBitmap_ne_sb := by decide
  inodeBitmap_ne_sb := by decide
  blockBitmap_ne_gdesc := by decide
  inodeBitmap_ne_gdesc := by decide
  blockBitmap_ne_inodeBitmap := by decide
  rec_ne_sb := by
    intro n _ _
    simp only [inoOff, inoIndex, sbBlock]
    omega
  rec_ne_gdesc := by
    intro n _ _ g hg
    simp only [inoOff, inoIndex, gdescBlock, gdtStartBlock]
    omega
  rec_ne_blockBitmap := by
    intro n _ _ g _
    simp only [inoOff, inoIndex]
    omega
  rec_ne_inodeBitmap := by
    intro n _ _ g _
    simp only [inoOff, inoIndex]
    omega

def sampleRoot : Inode :=
  { Inode.zero with
    mode := 0x41ED, size := 1024, linksCount := 2, blocks := 2
    block := fun k => if k = 0 then 9 else 0 }

def sampleFile : Inode :=
  { Inode.zero with
    mode := 0x81A4, size := 5, linksCount := 1, blocks := 2
    block := fun k => if k = 0 then 10 else 0 }

def sampleDisk : ℕ → Bytes
  | 2 => wr16 (wr16 (wr32 (wr32 (wr32 zero 0 3) 4 4) 8 5) 12 53) 14 21
  | 3 => wr16 zero 0 0x07FF
  | 4 => wr16 zero 0 0x07FF
  | 5 => copyIn zero 128 128 sampleRoot.encode
  | 6 => copyIn zero 256 128 sampleFile.encode
  | 9 =>
    -- `.`, `..`, `a`, and the rest of the block
    wr16 (wr8 (wr8 (wr8 (wr16 (wr32 (wr8 (wr8 (wr8 (wr8 (wr16 (wr32 (wr8 (wr8 (wr8 (wr16 (wr32 zero
      0 2) 4 12) 6 1) 7 2) 8 46) 12 2) 16 12) 18 2) 19 2) 20 46) 21 46) 24 11) 28 12) 30 1) 31 1)
      32 97) 40 988
  | 10 => wr8 (wr32 zero 0 0x6C6C6568) 4 0x6F
  | _ => zero

def sampleFs : Fs where
  disk := sampleDisk
  fault := fun _ => none
  blkbuf := zero
  indbuf := zero
  sFreeBlocksCount := 53
  sFreeInodesCount := 21
  dcache := fun _ => ⟨0, 0, 0, [], false⟩
  dcacheNext := 0
  now := 0

theorem sampleFs_metaInv : MetaInv sampleVolume sampleFs where
  healthy _ := rfl
  blockBitmap := by decide
  inodeBitmap := by decide
  inodeTable := by decide

end BananaOS.Ext2
