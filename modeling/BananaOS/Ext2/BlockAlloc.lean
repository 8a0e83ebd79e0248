import BananaOS.Ext2.Volume

/-!
# Allocating and freeing blocks

`ext2_free_block` clears one bit.  `ext2_alloc_block` returns a block whose bit was clear and is set
afterwards; along the way it may also set bit 0 of some groups, because a search that ends at bit 0
counts as a failure after the bit was written.  So the bits only grow (`BlockAlloced.used_mono`),
which is all that well-formed volumes ask of them, and the call succeeds exactly when some group
with a nonzero counter has its first clear bit elsewhere than at 0 (`CanAllocBlock`).
-/

namespace BananaOS.Ext2

open Function Bytes FailState

variable {v : Volume} {s s' : Fs}

/-! ## Freeing -/

structure BlockFreed (v : Volume) (s : Fs) (b : ℕ) (s' : Fs) : Prop where
  step : MetaStep v s s'
  inoBit : ∀ k, v.IsIno k → s'.inoBit v k = s.inoBit v k
  used : ∀ x < v.m.sBlocksCount, s'.used v x = (!decide (x = b) && s.used v x)
  freeBlocks : s'.sFreeBlocksCount = incr32 s.sFreeBlocksCount
  freeInodes : s'.sFreeInodesCount = s.sFreeInodesCount

def Fs.freedBlock (s : Fs) (v : Volume) (b : ℕ) : Fs :=
  s.bitmapEnd v (v.blockBitmap (b / v.m.blocksPerGroup))
    (WordBitmap.clear (w := 8) (s.disk (v.blockBitmap (b / v.m.blocksPerGroup)))
      (b % v.m.blocksPerGroup)) (b / v.m.blocksPerGroup)
    (wr16 (s.gdesc v (b / v.m.blocksPerGroup)) 12
      (bgFreeBlocksCount (s.gdesc v (b / v.m.blocksPerGroup)) + 1))
    fun s => { s with sFreeBlocksCount := incr32 s.sFreeBlocksCount }

variable {b g i : ℕ}

theorem freeBlock_run (hi : MetaInv v s) (h0 : b ≠ 0) (hb : b < v.m.sBlocksCount) :
    freeBlock v.m b s = (some (), s.freedBlock v b) := by
  have hg := v.blkGroup_lt hb
  have hbm : v.IsBitmap (v.blockBitmap (b / v.m.blocksPerGroup)) := ⟨_, hg, .inl rfl⟩
  have hi0 : MetaInv v { s with blkbuf := s.disk (gdescBlock v.m (b / v.m.blocksPerGroup)) } :=
    hi.of_disk rfl rfl
  unfold freeBlock
  rw [if_neg (by rw [v.mounted]; simpa using h0), bind_of_some (readGdesc_run hi hg),
    hi.blockBitmap _ hg, bind_of_some (bitmapClear_run hi0 (v.blockBitmap_lt _ hg) _)]
  exact bitmapEnd_run hi0 hbm _ hg (samePointers_wr16 _ (by decide) _) (fun _ => rfl) (pure ())

theorem freeBlock_spec (hi : MetaInv v s) (h0 : b ≠ 0) (hb : b < v.m.sBlocksCount) :
    ∃ s', freeBlock v.m b s = (some (), s') ∧ BlockFreed v s b s' := by
  have hg := v.blkGroup_lt hb
  have hbm : v.IsBitmap (v.blockBitmap (b / v.m.blocksPerGroup)) := ⟨_, hg, .inl rfl⟩
  have hc : BitmapChanged v _ _ _ s (s.freedBlock v b) :=
    bitmapChanged_bitmapEnd hi hbm _ hg (samePointers_wr16 _ (by decide) _) fun _ => rfl
  obtain ⟨hino, hbit⟩ := bits_of_blockBitmap hg hc.bitmaps
  obtain ⟨t, ht1, ht2, hfb, hfi⟩ := hc.counters
  refine ⟨s.freedBlock v b, freeBlock_run hi h0 hb, hc.step, hino, fun x hx => ?_,
    hfb.trans (congrArg incr32 ht1), hfi.trans ht2⟩
  rw [hbit x hx]
  by_cases he : x / v.m.blocksPerGroup = b / v.m.blocksPerGroup
  · rw [if_pos he, WordBitmap.get_clear (by decide)]
    have hiff : (x % v.m.blocksPerGroup = b % v.m.blocksPerGroup) ↔ x = b :=
      ⟨fun hm => WordBitmap.div_eq_and_mod_eq he hm, fun h => by rw [h]⟩
    simp only [hiff, Fs.used, he]
  · have hne : x ≠ b := fun h => he (by rw [h])
    rw [if_neg he, decide_eq_false hne]
    rfl

/-! ## Allocating -/

/-- Group `g` counts free blocks, and `i` is the first clear bit of its bitmap. -/
def FirstFreeBlock (v : Volume) (s : Fs) (g i : ℕ) : Prop :=
  bgFreeBlocksCount (s.gdesc v g) ≠ 0 ∧
    WordBitmap.firstClear (w := 8) (s.disk (v.blockBitmap g))
      (groupRange v.m.sBlocksCount v.m.blocksPerGroup g) 0 = some i

/-- `ext2_alloc_block` finds a block. -/
def CanAllocBlock (v : Volume) (s : Fs) : Prop :=
  s.sFreeBlocksCount ≠ 0 ∧
    ∃ g < groupCount v.m.sBlocksCount v.m.blocksPerGroup, ∃ i, i ≠ 0 ∧ FirstFreeBlock v s g i

structure BlockAlloced (v : Volume) (s : Fs) (b : ℕ) (s' : Fs) : Prop where
  step : MetaStep v s s'
  inoBit : ∀ k, v.IsIno k → s'.inoBit v k = s.inoBit v k
  used_mono : ∀ x < v.m.sBlocksCount, s.used v x = true → s'.used v x = true
  fresh : b ≠ 0 → b < v.m.sBlocksCount ∧ s.used v b = false ∧ s'.used v b = true
  freeInodes : s'.sFreeInodesCount = s.sFreeInodesCount

theorem BlockAlloced.none (hi : MetaInv v s) (buf : Bytes) :
    BlockAlloced v s 0 { s with blkbuf := buf } :=
  ⟨⟨hi.of_disk rfl rfl, fun _ _ => rfl, rfl, rfl, rfl, rfl⟩, fun _ _ => rfl, fun _ _ h => h,
    fun h => absurd rfl h, rfl⟩

theorem BlockAlloced.ne_of_used {x : ℕ} (h : BlockAlloced v s b s') (hb : b ≠ 0)
    (hu : s.used v x = true) : x ≠ b := by
  rintro rfl
  rw [(h.fresh hb).2.1] at hu
  cases hu

theorem BlockAlloced.after {s₀ : Fs} (h₀ : BlockAlloced v s₀ 0 s)
    (h : BlockAlloced v s b s') : BlockAlloced v s₀ b s' := by
  refine ⟨h₀.step.trans h.step, fun k hk => (h.inoBit k hk).trans (h₀.inoBit k hk),
    fun x hx hu => h.used_mono x hx (h₀.used_mono x hx hu), fun hb => ?_,
    h.freeInodes.trans h₀.freeInodes⟩
  obtain ⟨hlt, hclear, hset⟩ := h.fresh hb
  refine ⟨hlt, ?_, hset⟩
  cases hu : s₀.used v b with
  | false => rfl
  | true => exact (h₀.used_mono b hlt hu).symm.trans hclear

theorem used_of_set (hg : g < v.groups)
    (h : ∀ b, v.IsBitmap b → s'.disk b = if b = v.blockBitmap g then
      WordBitmap.set (w := 8) (s.disk (v.blockBitmap g)) i else s.disk b) {x : ℕ}
    (hx : x < v.m.sBlocksCount) :
    s'.used v x = (decide (x / v.m.blocksPerGroup = g ∧ x % v.m.blocksPerGroup = i) ||
      s.used v x) := by
  rw [(bits_of_blockBitmap hg h).2 x hx]
  by_cases he : x / v.m.blocksPerGroup = g
  · rw [if_pos he, WordBitmap.get_set (by decide)]
    unfold Fs.used
    simp only [he, true_and]
  · rw [if_neg he]
    simp [he]

theorem blockBitmapAlloc_some (hi : MetaInv v s) (hg : g < v.groups)
    (hf : FirstFreeBlock v s g i) {buf : Bytes} :
    blockBitmapAlloc v.m (s.gdesc v g) (groupRange v.m.sBlocksCount v.m.blocksPerGroup g)
        { s with blkbuf := buf } =
      (some i, s.withBlock (v.blockBitmap g)
        (WordBitmap.set (w := 8) (s.disk (v.blockBitmap g)) i)) := by
  have hi0 : MetaInv v { s with blkbuf := buf } := hi.of_disk rfl rfl
  unfold blockBitmapAlloc
  rw [hi.blockBitmap g hg, attempt_bind_run, readBlk_run hi0.healthy (v.blockBitmap_lt g hg)]
  simp only [gets_bind_run, hf.2, editBlk]
  rw [modify_bind_run, attempt_bind_run, writeBlk_run (v := v) ?_ (v.blockBitmap_lt g hg)]
  · rfl
  · exact hi.healthy

theorem blockBitmapAlloc_none (hi : MetaInv v s) (hg : g < v.groups)
    (hf : WordBitmap.firstClear (w := 8) (s.disk (v.blockBitmap g))
      (groupRange v.m.sBlocksCount v.m.blocksPerGroup g) 0 = none) {buf : Bytes} :
    blockBitmapAlloc v.m (s.gdesc v g) (groupRange v.m.sBlocksCount v.m.blocksPerGroup g)
        { s with blkbuf := buf } =
      (some 0, { s with blkbuf := s.disk (v.blockBitmap g) }) := by
  have hi0 : MetaInv v { s with blkbuf := buf } := hi.of_disk rfl rfl
  unfold blockBitmapAlloc
  rw [hi.blockBitmap g hg, attempt_bind_run, readBlk_run hi0.healthy (v.blockBitmap_lt g hg)]
  simp only [gets_bind_run, hf]
  rfl

def Fs.tookBlock (s : Fs) (v : Volume) (g i : ℕ) : Fs :=
  s.bitmapEnd v (v.blockBitmap g) (WordBitmap.set (w := 8) (s.disk (v.blockBitmap g)) i) g
    (wr16 (s.gdesc v g) 12 (bgFreeBlocksCount (s.gdesc v g) + (2 ^ 16 - 1)))
    fun s => { s with sFreeBlocksCount := decr32 s.sFreeBlocksCount }

theorem allocBlockFrom_took (hi : MetaInv v s) (n : ℕ) (hg : g < v.groups) (h0 : i ≠ 0)
    (hf : FirstFreeBlock v s g i) :
    allocBlockFrom v.m (n + 1) g s = (some (g * v.m.blocksPerGroup + i), s.tookBlock v g i) := by
  have hbm : v.IsBitmap (v.blockBitmap g) := ⟨g, hg, .inl rfl⟩
  have hrun := bitmapEnd_run hi hbm (WordBitmap.set (w := 8) (s.disk (v.blockBitmap g)) i) hg
    (samePointers_wr16 (s.gdesc v g) (o := 12) (by decide)
      (bgFreeBlocksCount (s.gdesc v g) + (2 ^ 16 - 1)))
    (f := fun s => { s with sFreeBlocksCount := decr32 s.sFreeBlocksCount }) (fun _ => rfl)
    (pure (g * v.m.blocksPerGroup + i))
  unfold allocBlockFrom
  rw [attempt_bind_run, readGdesc_run hi hg]
  simp only
  rw [if_neg hf.1, bind_of_some (blockBitmapAlloc_some hi hg hf), if_neg h0]
  -- the descriptor is written, so the failure branch is not taken
  have hs1 := writeGdesc_run (metaStep_withBlock hi hbm
    (WordBitmap.set (w := 8) (s.disk (v.blockBitmap g)) i)).inv hg
    (wr16 (s.gdesc v g) 12 (bgFreeBlocksCount (s.gdesc v g) + (2 ^ 16 - 1)))
  rw [attempt_bind_run, hs1]
  rw [bind_of_some hs1] at hrun
  exact hrun

theorem FirstFreeBlock.lt (hf : FirstFreeBlock v s g i) :
    i < v.m.blocksPerGroup ∧ g * v.m.blocksPerGroup + i < v.m.sBlocksCount := by
  obtain ⟨-, hlt, -, -⟩ := WordBitmap.firstClear_some hf.2
  unfold groupRange at hlt
  omega

theorem allocBlockFrom_take (hi : MetaInv v s) {n : ℕ} (hg : g < v.groups) (h0 : i ≠ 0)
    (hf : FirstFreeBlock v s g i) :
    ∃ s', allocBlockFrom v.m (n + 1) g s = (some (g * v.m.blocksPerGroup + i), s') ∧
      BlockAlloced v s (g * v.m.blocksPerGroup + i) s' := by
  have hbm : v.IsBitmap (v.blockBitmap g) := ⟨g, hg, .inl rfl⟩
  have hc : BitmapChanged v _ _ _ s (s.tookBlock v g i) :=
    bitmapChanged_bitmapEnd hi hbm _ hg (samePointers_wr16 _ (by decide) _) fun _ => rfl
  have hused := fun x hx => used_of_set (x := x) hg hc.bitmaps hx
  obtain ⟨-, -, hclear, -⟩ := WordBitmap.firstClear_some hf.2
  obtain ⟨hbpg, hcount⟩ := hf.lt
  have hdiv := WordBitmap.mul_add_div (g := g) hbpg
  have hmod := WordBitmap.mul_add_mod (g := g) hbpg
  obtain ⟨t, _, ht2, _, hfi⟩ := hc.counters
  refine ⟨s.tookBlock v g i, allocBlockFrom_took hi n hg h0 hf, hc.step,
    (bits_of_blockBitmap hg hc.bitmaps).1, fun x hx hu => ?_, fun _ => ⟨hcount, ?_, ?_⟩,
    hfi.trans ht2⟩
  · rw [hused x hx, hu, Bool.or_true]
  · simp only [Fs.used, hdiv, hmod]
    exact hclear
  · rw [hused _ hcount, hdiv, hmod]
    simp

theorem blockAlloced_bit_zero (hi : MetaInv v s) (hg : g < v.groups) :
    BlockAlloced v s 0 (s.withBlock (v.blockBitmap g)
      (WordBitmap.set (w := 8) (s.disk (v.blockBitmap g)) 0)) := by
  have hbm : v.IsBitmap (v.blockBitmap g) := ⟨g, hg, .inl rfl⟩
  have hdisk : ∀ b, v.IsBitmap b → (s.withBlock (v.blockBitmap g)
      (WordBitmap.set (w := 8) (s.disk (v.blockBitmap g)) 0)).disk b =
      if b = v.blockBitmap g then WordBitmap.set (w := 8) (s.disk (v.blockBitmap g)) 0
      else s.disk b :=
    fun b _ => update_apply s.disk _ _ b
  refine ⟨metaStep_withBlock hi hbm _, (bits_of_blockBitmap hg hdisk).1, fun x hx hu => ?_,
    fun h => absurd rfl h, rfl⟩
  rw [used_of_set hg hdisk hx, hu, Bool.or_true]

theorem FirstFreeBlock.congr (h : FirstFreeBlock v s g i)
    (hd : s'.disk (v.blockBitmap g) = s.disk (v.blockBitmap g))
    (hg : s'.disk (gdescBlock v.m g) = s.disk (gdescBlock v.m g)) : FirstFreeBlock v s' g i := by
  unfold FirstFreeBlock Fs.gdesc at h ⊢
  rwa [hd, hg]

/-- A round of the loop finds a block, or goes on with bit 0 of the group set at most. -/
theorem allocBlockFrom_round (hi : MetaInv v s) (hg : g < v.groups) (n : ℕ) :
    (∃ i, i ≠ 0 ∧ FirstFreeBlock v s g i) ∨ (∀ i, i ≠ 0 → ¬ FirstFreeBlock v s g i) ∧
      ∃ s₁, BlockAlloced v s 0 s₁ ∧
        (∀ g', g < g' → g' < v.groups →
          s₁.disk (v.blockBitmap g') = s.disk (v.blockBitmap g') ∧
          s₁.disk (gdescBlock v.m g') = s.disk (gdescBlock v.m g')) ∧
        allocBlockFrom v.m (n + 1) g s = allocBlockFrom v.m n (g + 1) s₁ := by
  rw [allocBlockFrom, attempt_bind_run, readGdesc_run hi hg]
  simp only
  by_cases hc : bgFreeBlocksCount (s.gdesc v g) = 0
  · rw [if_pos hc]
    exact .inr ⟨fun i _ hf => hf.1 hc, _, .none hi (s.disk (gdescBlock v.m g)),
      fun _ _ _ => ⟨rfl, rfl⟩, rfl⟩
  rw [if_neg hc]
  cases hfind : WordBitmap.firstClear (w := 8) (s.disk (v.blockBitmap g))
      (groupRange v.m.sBlocksCount v.m.blocksPerGroup g) 0 with
  | some i =>
    have hf : FirstFreeBlock v s g i := ⟨hc, hfind⟩
    by_cases h0 : i = 0
    · subst h0
      rw [bind_of_some (blockBitmapAlloc_some hi hg hf), if_pos rfl]
      refine .inr ⟨fun i h0 hf' => h0 (Option.some.inj (hf'.2.symm.trans hfind)), _,
        blockAlloced_bit_zero hi hg, fun g' hlt hg' => ⟨?_, ?_⟩, rfl⟩
      · refine update_of_ne (fun he => ?_) _ _
        exact absurd (v.blockBitmap_inj _ hg' _ hg he) (by omega)
      · exact update_of_ne (v.blockBitmap_ne_gdesc g hg g' hg').symm _ _
    · exact .inl ⟨i, h0, hf⟩
  | none =>
    rw [bind_of_some (blockBitmapAlloc_none hi hg hfind), if_pos rfl]
    refine .inr ⟨fun i _ hf => ?_, _, .none hi (s.disk (v.blockBitmap g)),
      fun _ _ _ => ⟨rfl, rfl⟩, rfl⟩
    cases hfind.symm.trans hf.2

theorem allocBlockFrom_spec :
    ∀ (n g : ℕ) {s : Fs}, MetaInv v s → (∀ g', g ≤ g' → g' < g + n → g' < v.groups) →
      ∃ b s', allocBlockFrom v.m n g s = (some b, s') ∧ BlockAlloced v s b s' ∧
        (b ≠ 0 ↔ ∃ g', g ≤ g' ∧ g' < g + n ∧ ∃ i, i ≠ 0 ∧ FirstFreeBlock v s g' i) := by
  intro n
  induction n with
  | zero =>
    refine fun g s hi _ => ⟨0, s, rfl, ?_, ?_⟩
    · exact BlockAlloced.none hi s.blkbuf
    · exact ⟨fun h => absurd rfl h, fun ⟨g', h1, h2, _⟩ => absurd h1 (by omega)⟩
  | succ n ih =>
    intro g s hi hgr
    have hg := hgr g (le_refl g) (by omega)
    rcases allocBlockFrom_round hi hg n with ⟨i, h0, hf⟩ | ⟨hno, s₁, h₁, hsame, hrun⟩
    · obtain ⟨s', hr, hb⟩ := allocBlockFrom_take (n := n) hi hg h0 hf
      exact ⟨_, s', hr, hb, ⟨fun _ => ⟨g, le_refl g, by omega, i, h0, hf⟩, fun _ => by omega⟩⟩
    · obtain ⟨b, s', hr, hb, hiff⟩ := ih (g + 1) h₁.step.inv
        (fun g' h2 h3 => hgr g' (by omega) (by omega))
      refine ⟨b, s', hrun.trans hr, h₁.after hb, hiff.trans ⟨?_, ?_⟩⟩
      · rintro ⟨g', h2, h3, i, h0, hf⟩
        obtain ⟨hd, hgd⟩ := hsame g' h2 (hgr g' (by omega) (by omega))
        exact ⟨g', by omega, by omega, i, h0, hf.congr hd.symm hgd.symm⟩
      · rintro ⟨g', h2, h3, i, h0, hf⟩
        rcases Nat.eq_or_lt_of_le h2 with rfl | hlt
        · exact absurd hf (hno i h0)
        · obtain ⟨hd, hgd⟩ := hsame g' hlt (hgr g' (by omega) (by omega))
          exact ⟨g', hlt, by omega, i, h0, hf.congr hd hgd⟩

theorem lt_groups_of_lt_blockGroupCount
    (hg : g < groupCount v.m.sBlocksCount v.m.blocksPerGroup) : g < v.groups := by
  have h1 := v.blocks_fit
  have h2 := v.blocks_le
  have h4 := v.bpg_le
  have hpos := v.bpg_pos
  have h5 : v.m.sBlocksCount + v.m.blocksPerGroup ≤ 2 ^ 31 := by
    rcases v.blkSize_cases with h | h | h <;> rw [h] at h1 h4 <;> omega
  unfold groupCount at hg
  rw [Nat.mod_eq_of_lt (by omega), Nat.lt_div_iff_mul_lt hpos] at hg
  have h3 : g * v.m.blocksPerGroup < v.m.sBlocksCount := by omega
  exact Nat.lt_of_mul_lt_mul_right (lt_of_lt_of_le h3 h2)

theorem allocBlock_spec (hi : MetaInv v s) :
    ∃ b s', allocBlock v.m s = (some b, s') ∧ BlockAlloced v s b s' ∧
      (b ≠ 0 ↔ CanAllocBlock v s) := by
  unfold allocBlock
  rw [if_neg (by rw [v.mounted]; decide), gets_bind_run]
  by_cases hz : s.sFreeBlocksCount = 0
  · rw [if_pos hz]
    exact ⟨0, s, rfl, BlockAlloced.none hi s.blkbuf,
      ⟨fun h => absurd rfl h, fun h => absurd hz h.1⟩⟩
  · rw [if_neg hz]
    obtain ⟨b, s', hr, hb, hiff⟩ := allocBlockFrom_spec
      (groupCount v.m.sBlocksCount v.m.blocksPerGroup) 0 hi
      (fun g' _ h2 => lt_groups_of_lt_blockGroupCount (by omega))
    refine ⟨b, s', hr, hb, hiff.trans ⟨?_, ?_⟩⟩
    · rintro ⟨g, _, h2, i, h0, hf⟩
      exact ⟨hz, g, by omega, i, h0, hf⟩
    · rintro ⟨_, g, hg, i, h0, hf⟩
      exact ⟨g, Nat.zero_le g, by omega, i, h0, hf⟩

/-! ## What is in the buffers -/

/-- Put something else into `ext2_indbuf`. -/
def Fs.setInd (ibuf : Bytes) (s : Fs) : Fs := { s with indbuf := ibuf }

section Buffers

variable {m : Mount} {ibuf : Bytes}

theorem commutes_readBlk (b : ℕ) : Commutes (Fs.setInd ibuf) (readBlk m b) := fun s => by
  rw [readBlk, readBlk, show (s.setInd ibuf).fault = s.fault from rfl]
  cases s.fault (physBlock m b) <;> rfl

theorem commutes_writeBlk (b : ℕ) : Commutes (Fs.setInd ibuf) (writeBlk m b) := fun s => by
  rw [writeBlk, writeBlk, writeBlock, writeBlock, show (s.setInd ibuf).fault = s.fault from rfl]
  by_cases hm : m.mounted = false
  · rw [if_pos hm, if_pos hm]
  · rw [if_neg hm, if_neg hm]
    cases s.fault (physBlock m b) <;> rfl

theorem commutes_writeSuperblock : Commutes (Fs.setInd ibuf) (writeSuperblock m) := fun s => by
  rw [writeSuperblock, writeSuperblock, show (s.setInd ibuf).fault = s.fault from rfl]
  cases s.fault (sbBlock m) <;> rfl

theorem commutes_editBlk (f : Bytes → Bytes) : Commutes (Fs.setInd ibuf) (editBlk f) :=
  commutes_modify fun _ => rfl

theorem commutes_readGdesc (g : ℕ) : Commutes (Fs.setInd ibuf) (readGdesc m g) :=
  (commutes_readBlk _).bind fun _ => commutes_gets fun _ => rfl

theorem commutes_writeGdesc (g : ℕ) (gd : Bytes) :
    Commutes (Fs.setInd ibuf) (writeGdesc m g gd) :=
  (commutes_readBlk _).bind fun _ => (commutes_editBlk _).bind fun _ => commutes_writeBlk _

theorem commutes_blockBitmapAlloc (gd : Bytes) (range : ℕ) :
    Commutes (Fs.setInd ibuf) (blockBitmapAlloc m gd range) := by
  refine (commutes_readBlk _).attempt.bind fun r => ?_
  cases r with
  | none => exact commutes_pure 0
  | some _ =>
    simp only
    refine Commutes.bind (commutes_gets fun _ => rfl) fun found => ?_
    cases found with
    | none => exact commutes_pure 0
    | some b =>
      refine (commutes_editBlk _).bind fun _ => (commutes_writeBlk _).attempt.bind fun r => ?_
      cases r <;> exact commutes_pure _

theorem commutes_allocBlockFrom (n : ℕ) :
    ∀ g, Commutes (Fs.setInd ibuf) (allocBlockFrom m n g) := by
  induction n with
  | zero => exact fun _ => commutes_pure 0
  | succ n ih =>
    intro g
    rw [allocBlockFrom]
    refine (commutes_readGdesc g).attempt.bind fun r => ?_
    cases r with
    | none => exact ih (g + 1)
    | some gd =>
      simp only
      by_cases hc : bgFreeBlocksCount gd = 0
      · rw [if_pos hc]
        exact ih (g + 1)
      · rw [if_neg hc]
        refine (commutes_blockBitmapAlloc gd _).bind fun i => ?_
        by_cases h0 : i = 0
        · rw [if_pos h0]
          exact ih (g + 1)
        · rw [if_neg h0]
          refine (commutes_writeGdesc g _).attempt.bind fun r => ?_
          cases r with
          | none => exact commutes_pure 0
          | some _ =>
            simp only
            exact Commutes.bind (commutes_modify fun _ => rfl) fun _ =>
              commutes_writeSuperblock.attempt.bind fun _ => commutes_pure _

theorem allocBlockFrom_blkbuf (n g : ℕ) (buf : Bytes) (s : Fs) :
    allocBlockFrom m (n + 1) g { s with blkbuf := buf } = allocBlockFrom m (n + 1) g s := by
  have hread : readGdesc m g { s with blkbuf := buf } = readGdesc m g s := by
    rw [readGdesc, bind_run, bind_run, readBlk, readBlk]
  rw [allocBlockFrom, attempt_bind_run, attempt_bind_run, hread]

theorem allocBlock_bufs (h : (allocBlock m s).1 = some b) (hb : b ≠ 0)
    (buf ibuf : Bytes) : allocBlock m { s with blkbuf := buf, indbuf := ibuf } =
      (some b, (allocBlock m s).2.setInd ibuf) := by
  by_cases hm : m.mounted = false
  · rw [allocBlock, if_pos hm] at h
    exact absurd (Option.some.inj h).symm hb
  · by_cases hz : s.sFreeBlocksCount = 0
    · rw [allocBlock, if_neg hm, gets_bind_run, if_pos hz] at h
      exact absurd (Option.some.inj h).symm hb
    · have hloop : ∀ t : Fs, t.sFreeBlocksCount ≠ 0 → allocBlock m t =
          allocBlockFrom m (groupCount m.sBlocksCount m.blocksPerGroup) 0 t := by
        intro t ht
        rw [allocBlock, if_neg hm, gets_bind_run, if_neg ht]
      rw [hloop s hz] at h ⊢
      rw [hloop { s with blkbuf := buf, indbuf := ibuf } hz]
      generalize groupCount m.sBlocksCount m.blocksPerGroup = n at h ⊢
      cases n with
      | zero => exact absurd (Option.some.inj h).symm hb
      | succ n =>
        have hrun : Commutes (Fs.setInd ibuf) (allocBlockFrom m (n + 1) 0) :=
          commutes_allocBlockFrom (n + 1) 0
        have hrun := hrun { s with blkbuf := buf }
        rw [allocBlockFrom_blkbuf n 0 buf s, h] at hrun
        exact hrun

end Buffers

end BananaOS.Ext2
