import BananaOS.Lib.GuardedRun
import BananaOS.Ext2.BlockAlloc

/-!
# Counting free blocks

The number of free blocks is kept in three places: per group in the descriptors, in the superblock
on the disk, and in the superblock in memory.  The bitmaps are a fourth, and the one that the other
three should follow.
-/

namespace BananaOS.Ext2

open Bytes FailState GuardedRun

def Volume.groupSize (v : Volume) (g : ℕ) : ℕ := groupRange v.m.sBlocksCount v.m.blocksPerGroup g

def clearBits (p : Bytes) (n : ℕ) : Finset ℕ :=
  (Finset.range n).filter fun i => WordBitmap.get (w := 8) p i = false

def Fs.freeIn (s : Fs) (v : Volume) (g : ℕ) : ℕ :=
  (clearBits (s.disk (v.blockBitmap g)) (v.groupSize g)).card

def Fs.freeTotal (s : Fs) (v : Volume) : ℕ := ∑ g ∈ Finset.range v.groups, s.freeIn v g

/-- **All counters agree with the bitmaps**, and bit 0 of every group is set. -/
structure BlocksCounted (v : Volume) (s : Fs) : Prop where
  inv : MetaInv v s
  group : ∀ g < v.groups, bgFreeBlocksCount (s.gdesc v g) = s.freeIn v g
  memory : s.sFreeBlocksCount = s.freeTotal v
  super : rd32 (s.disk (sbBlock v.m)) (sbOff v.m + 0x0C) = s.freeTotal v
  bitZero : ∀ b < v.m.sBlocksCount, b % v.m.blocksPerGroup = 0 → s.used v b = true

variable {v : Volume} {s : Fs}

/-! ## Clear bits -/

variable {i b g : ℕ}

theorem mem_clearBits {p : Bytes} {n : ℕ} :
    i ∈ clearBits p n ↔ i < n ∧ WordBitmap.get (w := 8) p i = false := by
  simp [clearBits]

theorem clearBits_set (p : Bytes) (n i : ℕ) :
    clearBits (WordBitmap.set (w := 8) p i) n = (clearBits p n).erase i := by
  ext j
  simp only [mem_clearBits, Finset.mem_erase, WordBitmap.get_set (w := 8) (by decide),
    Bool.or_eq_false_iff, decide_eq_false_iff_not]
  tauto

theorem clearBits_clear (p : Bytes) {n : ℕ} (hi : i < n) :
    clearBits (WordBitmap.clear (w := 8) p i) n = insert i (clearBits p n) := by
  ext j
  simp only [mem_clearBits, Finset.mem_insert, WordBitmap.get_clear (w := 8) (by decide),
    Bool.and_eq_false_iff, Bool.not_eq_false', decide_eq_true_eq]
  constructor
  · rintro ⟨hj, h | h⟩
    · exact .inl h
    · exact .inr ⟨hj, h⟩
  · rintro (rfl | ⟨hj, h⟩)
    · exact ⟨hi, .inl rfl⟩
    · exact ⟨hj, .inr h⟩

theorem sum_groupSize_le (v : Volume) (n : ℕ) :
    ∑ g ∈ Finset.range n, v.groupSize g ≤ min (n * v.m.blocksPerGroup) v.m.sBlocksCount := by
  induction n with
  | zero => simp
  | succ n ih =>
    rw [Finset.sum_range_succ, Nat.succ_mul]
    simp only [Volume.groupSize, groupRange] at ih ⊢
    omega

theorem Fs.freeIn_le (s : Fs) (v : Volume) (g : ℕ) : s.freeIn v g ≤ v.groupSize g :=
  (Finset.card_le_card (Finset.filter_subset _ _)).trans (Finset.card_range _).le

theorem Fs.freeTotal_le (s : Fs) (v : Volume) : s.freeTotal v ≤ v.m.sBlocksCount :=
  (Finset.sum_le_sum fun g _ => s.freeIn_le v g).trans
    ((sum_groupSize_le v v.groups).trans (min_le_right ..))

theorem Volume.sBlocksCount_le (v : Volume) : v.m.sBlocksCount ≤ 2 ^ 28 := by
  have hfit := v.blocks_fit
  rcases v.blkSize_cases with h | h | h <;> rw [h] at hfit <;> omega

theorem Volume.groupSize_le (v : Volume) (g : ℕ) : v.groupSize g ≤ 2 ^ 15 := by
  have hbpg := v.bpg_le
  simp only [Volume.groupSize, groupRange]
  rcases v.blkSize_cases with h | h | h <;> rw [h] at hbpg <;> omega

theorem Volume.mod_lt_groupSize (v : Volume) (hb : b < v.m.sBlocksCount) :
    b % v.m.blocksPerGroup < v.groupSize (b / v.m.blocksPerGroup) := by
  have hmod := Nat.mod_lt b v.bpg_pos
  have hdiv := Nat.div_add_mod' b v.m.blocksPerGroup
  simp only [Volume.groupSize, groupRange]
  omega

theorem freeTotal_eq_zero : s.freeTotal v = 0 ↔ ∀ b < v.m.sBlocksCount, s.used v b = true := by
  simp only [Fs.freeTotal, Finset.sum_eq_zero_iff, Finset.mem_range, Fs.freeIn, Finset.card_eq_zero,
    Finset.eq_empty_iff_forall_notMem, mem_clearBits, not_and, Bool.not_eq_false]
  constructor
  · exact fun h b hb => h _ (v.blkGroup_lt hb) _ (v.mod_lt_groupSize hb)
  · intro h g hg i hi
    have hlt : i < v.m.blocksPerGroup ∧ g * v.m.blocksPerGroup + i < v.m.sBlocksCount := by
      simp only [Volume.groupSize, groupRange] at hi
      omega
    have hused := h _ hlt.2
    simp only [Fs.used] at hused
    rwa [WordBitmap.mul_add_div hlt.1, WordBitmap.mul_add_mod hlt.1] at hused

/-! ## One call moves all counters -/

section

variable (h : BlocksCounted v s)

include h

theorem BlocksCounted.bitmapEnd {x : ℕ} {data : Bytes} {f : Fs → Fs}
    (hg : g < v.groups) (hf : CountersOnly f)
    (hx : x % 2 ^ 16 = (clearBits data (v.groupSize g)).card)
    (hz : 0 < v.groupSize g → WordBitmap.get (w := 8) data 0 = true)
    (hn : (s.bitmapEnd v (v.blockBitmap g) data g (wr16 (s.gdesc v g) 12 x) f).sFreeBlocksCount +
      s.freeIn v g = s.freeTotal v + (clearBits data (v.groupSize g)).card) :
    BlocksCounted v (s.bitmapEnd v (v.blockBitmap g) data g (wr16 (s.gdesc v g) 12 x) f) := by
  have hbm : v.IsBitmap (v.blockBitmap g) := ⟨g, hg, .inl rfl⟩
  have hc := bitmapChanged_bitmapEnd h.inv hbm data hg
    (samePointers_wr16 (s.gdesc v g) (o := 12) (by decide) x) hf
  have hcount := fun g' (hg' : g' < v.groups) => freeBlocks_bitmapEnd (s := s) (g := g) hbm data
    (wr16 (s.gdesc v g) 12 x) hf hg'
  have hsuper := superFree_bitmapEnd s v (v.blockBitmap g) data g (wr16 (s.gdesc v g) 12 x) f
  generalize s.bitmapEnd v (v.blockBitmap g) data g (wr16 (s.gdesc v g) 12 x) f = s' at *
  have hdisk : ∀ g' < v.groups, s'.disk (v.blockBitmap g') =
      if g' = g then data else s.disk (v.blockBitmap g') := by
    intro g' hg'
    rw [hc.bitmaps _ ⟨g', hg', .inl rfl⟩]
    by_cases he : g' = g
    · rw [if_pos he, if_pos (congrArg _ he)]
    · rw [if_neg he, if_neg fun hb => he (v.blockBitmap_inj _ hg' _ hg hb)]
  have hfree : ∀ g' < v.groups, s'.freeIn v g' =
      if g' = g then (clearBits data (v.groupSize g)).card else s.freeIn v g' := by
    intro g' hg'
    simp only [Fs.freeIn, hdisk g' hg']
    split_ifs with he
    · rw [he]
    · rfl
  -- the sums differ in the summand of group `g`
  have htotal : s'.freeTotal v + s.freeIn v g =
      s.freeTotal v + (clearBits data (v.groupSize g)).card := by
    have hmem := Finset.mem_range.mpr hg
    have hrest : ∑ g' ∈ (Finset.range v.groups).erase g, s'.freeIn v g' =
        ∑ g' ∈ (Finset.range v.groups).erase g, s.freeIn v g' := by
      refine Finset.sum_congr rfl fun g' hg' => ?_
      obtain ⟨hne, hlt⟩ := Finset.mem_erase.mp hg'
      rw [hfree g' (Finset.mem_range.mp hlt), if_neg hne]
    simp only [Fs.freeTotal]
    rw [← Finset.add_sum_erase _ _ hmem, ← Finset.add_sum_erase _ _ hmem, hrest, hfree g hg,
      if_pos rfl]
    omega
  have hmemory : s'.sFreeBlocksCount = s'.freeTotal v := by omega
  refine ⟨hc.step.inv, fun g' hg' => ?_, hmemory, ?_, fun b hb h0 => ?_⟩
  · rw [hcount g' hg', hfree g' hg']
    split_ifs with he
    · rw [bgFreeBlocksCount, rd16_wr16, hx]
    · exact h.group g' hg'
  · have hle := s'.freeTotal_le v
    have hfit := v.sBlocksCount_le
    rw [hsuper, hmemory, Nat.mod_eq_of_lt (by omega)]
  · rw [(bits_of_blockBitmap hg hc.bitmaps).2 b hb]
    split_ifs with he
    · rw [h0]
      exact hz (he ▸ Nat.pos_of_ne_zero fun hs => by
        have := v.mod_lt_groupSize hb
        omega)
    · exact h.bitZero b hb h0

theorem BlocksCounted.used_bit (hpos : 0 < v.groupSize g) :
    WordBitmap.get (w := 8) (s.disk (v.blockBitmap g)) 0 = true := by
  have hlt : g * v.m.blocksPerGroup < v.m.sBlocksCount := by
    simp only [Volume.groupSize, groupRange] at hpos
    omega
  have hbit := h.bitZero _ hlt (Nat.mul_mod_left ..)
  simp only [Fs.used] at hbit
  rwa [Nat.mul_mod_left, Nat.mul_div_cancel _ v.bpg_pos] at hbit

theorem BlocksCounted.took (hg : g < v.groups) (h0 : i ≠ 0)
    (hf : FirstFreeBlock v s g i) : BlocksCounted v (s.tookBlock v g i) := by
  obtain ⟨-, hlt, hclear, -⟩ := WordBitmap.firstClear_some hf.2
  rw [Nat.zero_add] at hlt
  have hmem : i ∈ clearBits (s.disk (v.blockBitmap g)) (v.groupSize g) :=
    mem_clearBits.mpr ⟨hlt, hclear⟩
  have hcard := Finset.card_erase_add_one hmem
  rw [← clearBits_set] at hcard
  have hle := s.freeIn_le v g
  have hsize := v.groupSize_le g
  have htotal : s.freeIn v g ≤ s.freeTotal v :=
    Finset.single_le_sum (fun _ _ => Nat.zero_le _) (Finset.mem_range.mpr hg)
  have hfit := (s.freeTotal_le v).trans v.sBlocksCount_le
  refine h.bitmapEnd hg (fun _ => rfl) ?_ (fun hpos => ?_) ?_
  · rw [h.group g hg]
    simp only [Fs.freeIn] at hle ⊢
    omega
  · rw [WordBitmap.get_set (by decide), h.used_bit hpos, Bool.or_true]
  · have hmemory : (s.tookBlock v g i).sFreeBlocksCount = decr32 (s.freeTotal v) :=
      congrArg decr32 h.memory
    simp only [Fs.tookBlock] at hmemory
    rw [hmemory, decr32]
    simp only [Fs.freeIn] at hle htotal ⊢
    omega

theorem BlocksCounted.freed (hb : b < v.m.sBlocksCount)
    (hused : s.used v b = true) (hz : b % v.m.blocksPerGroup ≠ 0) :
    BlocksCounted v (s.freedBlock v b) := by
  have hg := v.blkGroup_lt hb
  have hlt := v.mod_lt_groupSize hb
  have hnot : b % v.m.blocksPerGroup ∉ clearBits (s.disk (v.blockBitmap (b / v.m.blocksPerGroup)))
      (v.groupSize (b / v.m.blocksPerGroup)) := by
    rw [mem_clearBits]
    rintro ⟨-, hclear⟩
    exact Bool.false_ne_true (hclear.symm.trans hused)
  have hcard := Finset.card_insert_of_notMem hnot
  rw [← clearBits_clear _ hlt] at hcard
  have hsize := v.groupSize_le (b / v.m.blocksPerGroup)
  have hle := s.freeIn_le v (b / v.m.blocksPerGroup)
  have hfit := (s.freeTotal_le v).trans v.sBlocksCount_le
  refine h.bitmapEnd hg (fun _ => rfl) ?_ (fun hpos => ?_) ?_
  · rw [h.group _ hg, hcard]
    exact Nat.mod_eq_of_lt (lt_of_le_of_lt (Nat.add_le_add_right (hle.trans hsize) 1) (by decide))
  · rw [WordBitmap.get_clear (by decide), h.used_bit hpos, Bool.and_true]
    simpa using hz.symm
  · have hmemory : (s.freedBlock v b).sFreeBlocksCount = incr32 (s.freeTotal v) :=
      congrArg incr32 h.memory
    simp only [Fs.freedBlock] at hmemory
    rw [hmemory, hcard, incr32, Nat.mod_eq_of_lt (by omega), Fs.freeIn]
    omega

/-! ## The group loop -/

theorem BlocksCounted.of_blkbuf (buf : Bytes) : BlocksCounted v { s with blkbuf := buf } :=
  ⟨h.inv.of_disk rfl rfl, h.group, h.memory, h.super, h.bitZero⟩

theorem BlocksCounted.firstFree (hg : g < v.groups)
    (hpos : s.freeIn v g ≠ 0) : ∃ i, i ≠ 0 ∧ FirstFreeBlock v s g i := by
  obtain ⟨j, hj⟩ := Finset.card_ne_zero.mp hpos
  obtain ⟨hjlt, hjclear⟩ := mem_clearBits.mp hj
  rcases hfind : WordBitmap.firstClear (w := 8) (s.disk (v.blockBitmap g)) (v.groupSize g) 0 with _ | i
  · have hset := WordBitmap.firstClear_none hfind j (Nat.zero_le j) (by omega)
    exact absurd (hjclear.symm.trans hset) Bool.false_ne_true
  · refine ⟨i, ?_, by rwa [h.group g hg], hfind⟩
    rintro rfl
    obtain ⟨-, -, hclear, -⟩ := WordBitmap.firstClear_some hfind
    exact Bool.false_ne_true (hclear.symm.trans (h.used_bit (by omega)))

theorem BlocksCounted.allocBlockFrom : ∀ (n g : ℕ), (∀ g', g ≤ g' → g' < g + n → g' < v.groups) →
      (∃ buf, allocBlockFrom v.m n g s = (some 0, { s with blkbuf := buf }) ∧
        ∀ g', g ≤ g' → g' < g + n → s.freeIn v g' = 0) ∨
      ∃ g' i, g' < v.groups ∧ i ≠ 0 ∧ FirstFreeBlock v s g' i ∧
        allocBlockFrom v.m n g s = (some (g' * v.m.blocksPerGroup + i), s.tookBlock v g' i) := by
  intro n
  induction n generalizing s with
  | zero => exact fun g _ => .inl ⟨s.blkbuf, rfl, fun g' h1 h2 => absurd h1 (by omega)⟩
  | succ n ih =>
    intro g hgr
    have hg := hgr g (le_refl g) (by omega)
    by_cases hc : s.freeIn v g = 0
    · -- the group is skipped
      have hskip : Ext2.allocBlockFrom v.m (n + 1) g s =
          Ext2.allocBlockFrom v.m n (g + 1) { s with blkbuf := s.disk (gdescBlock v.m g) } := by
        rw [Ext2.allocBlockFrom, attempt_bind_run, readGdesc_run h.inv hg]
        simp only
        rw [if_pos ((h.group g hg).trans hc)]
      rw [hskip]
      rcases ih (h.of_blkbuf _) (g + 1) (fun g' h1 h2 => hgr g' (by omega) (by omega)) with
        ⟨buf, hrun, hnone⟩ | ⟨g', i, hg', h0, hf, hrun⟩
      · refine .inl ⟨buf, hrun, fun g' h1 h2 => ?_⟩
        rcases Nat.eq_or_lt_of_le h1 with rfl | hlt
        · exact hc
        · exact hnone g' hlt (by omega)
      · exact .inr ⟨g', i, hg', h0, hf, hrun⟩
    · obtain ⟨i, h0, hf⟩ := h.firstFree hg hc
      exact .inr ⟨g, i, hg, h0, hf, allocBlockFrom_took h.inv n hg h0 hf⟩

end

theorem Volume.lt_groupCount (v : Volume) (hg : 0 < v.groupSize g) :
    g < groupCount v.m.sBlocksCount v.m.blocksPerGroup := by
  have hpos := v.bpg_pos
  have hbpg := v.bpg_le
  have hfit := v.sBlocksCount_le
  have h5 : v.m.blocksPerGroup ≤ 2 ^ 15 := by
    rcases v.blkSize_cases with h | h | h <;> rw [h] at hbpg <;> omega
  simp only [Volume.groupSize, groupRange] at hg
  rw [groupCount, Nat.mod_eq_of_lt (by omega), Nat.lt_div_iff_mul_lt hpos]
  omega

theorem BlocksCounted.allocBlock_cases (h : BlocksCounted v s) :
    (s.freeTotal v = 0 ∧ ∃ buf, allocBlock v.m s = (some 0, { s with blkbuf := buf })) ∨
      ∃ g i, g < v.groups ∧ i ≠ 0 ∧ FirstFreeBlock v s g i ∧
        allocBlock v.m s = (some (g * v.m.blocksPerGroup + i), s.tookBlock v g i) := by
  rw [allocBlock, if_neg (by rw [v.mounted]; decide), gets_bind_run]
  by_cases hz : s.sFreeBlocksCount = 0
  · rw [if_pos hz]
    exact .inl ⟨h.memory.symm.trans hz, s.blkbuf, rfl⟩
  rw [if_neg hz]
  rcases h.allocBlockFrom (groupCount v.m.sBlocksCount v.m.blocksPerGroup) 0
    (fun g' _ h2 => lt_groups_of_lt_blockGroupCount (by omega)) with
    ⟨buf, hrun, hnone⟩ | htaken
  · -- a group that the loop does not reach has no block
    refine absurd (h.memory.trans (Finset.sum_eq_zero fun g _ => ?_)) hz
    by_cases hsize : v.groupSize g = 0
    · exact Nat.eq_zero_of_le_zero (hsize ▸ s.freeIn_le v g)
    · exact hnone g (Nat.zero_le g)
        (by rw [Nat.zero_add]; exact v.lt_groupCount (Nat.pos_of_ne_zero hsize))
  · exact .inr htaken

/-- What `ext2_alloc_block` should do with the blocks `inUse`. -/
structure AllocRight (v : Volume) (s : Fs) (inUse : Finset ℕ) (b : ℕ) (s' : Fs) : Prop where
  zero_iff : b = 0 ↔ ∀ x < v.m.sBlocksCount, x ∈ inUse
  fresh : b ≠ 0 → b < v.m.sBlocksCount ∧ b ∉ inUse
  counted : BlocksCounted v s'
  used : ∀ x < v.m.sBlocksCount, s'.used v x = (decide (b ≠ 0 ∧ x = b) || s.used v x)

theorem BlocksCounted.allocBlock (h : BlocksCounted v s) {inUse : Finset ℕ}
    (huse : ∀ x < v.m.sBlocksCount, x ∈ inUse ↔ s.used v x = true) :
    ∃ b s', allocBlock v.m s = (some b, s') ∧ AllocRight v s inUse b s' := by
  have hfull : s.freeTotal v = 0 → ∀ buf, AllocRight v s inUse 0 { s with blkbuf := buf } := by
    refine fun hz buf => ⟨iff_of_true rfl fun x hx => ?_, fun hb => absurd rfl hb, h.of_blkbuf buf,
      fun x hx => ?_⟩
    · exact (huse x hx).mpr (freeTotal_eq_zero.mp hz x hx)
    · simp only [ne_eq, not_true_eq_false, false_and, decide_false, Bool.false_or]
      rfl
  rcases h.allocBlock_cases with ⟨hz, buf, hrun⟩ | ⟨g, i, hg, h0, hf, hrun⟩
  · exact ⟨0, _, hrun, hfull hz buf⟩
  · obtain ⟨hi, hlt⟩ := hf.lt
    obtain ⟨-, -, hclear, -⟩ := WordBitmap.firstClear_some hf.2
    have hbm : v.IsBitmap (v.blockBitmap g) := ⟨g, hg, .inl rfl⟩
    have hc : BitmapChanged v _ _ _ s (s.tookBlock v g i) :=
      bitmapChanged_bitmapEnd h.inv hbm _ hg (samePointers_wr16 _ (by decide) _) fun _ => rfl
    have hunused : s.used v (g * v.m.blocksPerGroup + i) = false := by
      simp only [Fs.used]
      rwa [WordBitmap.mul_add_div hi, WordBitmap.mul_add_mod hi]
    have hnot : g * v.m.blocksPerGroup + i ∉ inUse := fun hin =>
      Bool.false_ne_true (hunused.symm.trans ((huse _ hlt).mp hin))
    have hne : g * v.m.blocksPerGroup + i ≠ 0 := by omega
    refine ⟨_, _, hrun, iff_of_false hne fun hall => hnot (hall _ hlt), fun _ => ⟨hlt, hnot⟩,
      h.took hg h0 hf, fun x hx => ?_⟩
    rw [used_of_set hg hc.bitmaps hx]
    have hiff : (x / v.m.blocksPerGroup = g ∧ x % v.m.blocksPerGroup = i) ↔
        x = g * v.m.blocksPerGroup + i := by
      constructor
      · rintro ⟨rfl, rfl⟩
        exact (Nat.div_add_mod' x _).symm
      · rintro rfl
        exact ⟨WordBitmap.mul_add_div hi, WordBitmap.mul_add_mod hi⟩
    simp only [hiff, ne_eq, hne, not_false_eq_true, true_and]

/-! ## Runs of allocations and frees -/

structure BlockRun where
  fs : Fs
  inUse : Finset ℕ

variable {r : BlockRun}

inductive BlockOp where
  | alloc
  | free (b : ℕ)

def BlockRun.step (m : Mount) (r : BlockRun) : BlockOp → Option BlockRun
  | .alloc =>
    match allocBlock m r.fs with
    | (some b, s') => some ⟨s', if b = 0 then r.inUse else insert b r.inUse⟩
    | (none, s') => some { r with fs := s' }
  | .free b => some ⟨(freeBlock m b r.fs).2, r.inUse.erase b⟩

def BlockOp.Legal (v : Volume) (r : BlockRun) : BlockOp → Prop
  | .alloc => True
  | .free b => b ∈ r.inUse ∧ b % v.m.blocksPerGroup ≠ 0

/-- The counters are right, and the blocks in use are those whose bit is set. -/
structure BlocksConsistent (v : Volume) (r : BlockRun) : Prop where
  counted : BlocksCounted v r.fs
  lt : ∀ b ∈ r.inUse, b < v.m.sBlocksCount
  inUse_iff : ∀ b < v.m.sBlocksCount, b ∈ r.inUse ↔ r.fs.used v b = true

theorem BlocksConsistent.free (h : BlocksConsistent v r) (hlegal : BlockOp.Legal v r (.free b)) :
    freeBlock v.m b r.fs = (some (), r.fs.freedBlock v b) ∧
      BlocksConsistent v ⟨r.fs.freedBlock v b, r.inUse.erase b⟩ := by
  obtain ⟨hin, hz⟩ := hlegal
  have hb := h.lt b hin
  have h0 : b ≠ 0 := by
    rintro rfl
    exact hz (Nat.zero_mod _)
  have hrun := freeBlock_run h.counted.inv h0 hb
  obtain ⟨s', hrun', hfreed⟩ := freeBlock_spec h.counted.inv h0 hb
  obtain rfl : r.fs.freedBlock v b = s' := (Prod.mk.inj (hrun.symm.trans hrun')).2
  refine ⟨hrun, h.counted.freed hb ((h.inUse_iff b hb).mp hin) hz, fun x hx => ?_, fun x hx => ?_⟩
  · exact h.lt x (Finset.mem_of_mem_erase hx)
  · rw [hfreed.used x hx, Finset.mem_erase, h.inUse_iff x hx]
    simp

theorem BlocksConsistent.step {r' : BlockRun} {op : BlockOp} (h : BlocksConsistent v r)
    (hlegal : op.Legal v r) (hstep : r.step v.m op = some r') : BlocksConsistent v r' := by
  cases op with
  | alloc =>
    obtain ⟨b, s', hrun, hright⟩ := h.counted.allocBlock h.inUse_iff
    simp only [BlockRun.step, hrun, Option.some.injEq] at hstep
    subst hstep
    refine ⟨hright.counted, fun x hx => ?_, fun x hx => ?_⟩
    · dsimp only at hx
      split_ifs at hx with h0
      · exact h.lt x hx
      · rcases Finset.mem_insert.mp hx with rfl | hx
        · exact (hright.fresh h0).1
        · exact h.lt x hx
    · rw [hright.used x hx]
      split_ifs with h0
      · simp [h0, h.inUse_iff x hx]
      · simp [h0, h.inUse_iff x hx]
  | free b =>
    obtain ⟨hrun, hfree⟩ := h.free hlegal
    simp only [BlockRun.step, hrun, Option.some.injEq] at hstep
    exact hstep ▸ hfree

/-- **Blocks are counted**: in every state that legal calls lead to, the counters are right in
memory and on the disk, the next allocation fails only if no block is free and returns a free block
otherwise, and the next legal free succeeds. -/
theorem blocks_counted {r₀ r : BlockRun} {ops : List BlockOp} (h₀ : BlocksConsistent v r₀)
    (hrun : Run (BlockRun.step v.m) (fun r op => op.Legal v r) r₀ ops r) :
    BlocksConsistent v r ∧
      (∃ b s', allocBlock v.m r.fs = (some b, s') ∧ AllocRight v r.fs r.inUse b s') ∧
      ∀ b, BlockOp.Legal v r (.free b) → ∃ s', freeBlock v.m b r.fs = (some (), s') ∧
        BlocksConsistent v ⟨s', r.inUse.erase b⟩ := by
  have h : BlocksConsistent v r :=
    hrun.invariant (fun _ _ _ h hlegal hstep => h.step hlegal hstep) h₀
  exact ⟨h, h.counted.allocBlock h.inUse_iff, fun b hlegal => ⟨_, h.free hlegal⟩⟩

def sampleBlocks : BlockRun where
  fs := { sampleFs with disk := Function.update sampleDisk 1 (wr32 zero 0x0C 53) }
  inUse := Finset.range 11

theorem sampleBlocks_consistent : BlocksConsistent sampleVolume sampleBlocks where
  counted :=
    { inv := ⟨fun _ => rfl, by decide, by decide, by decide⟩
      group := by decide +kernel
      memory := by decide +kernel
      super := by decide +kernel
      bitZero := by
        have hall : ∀ b < 64, b % 8192 = 0 → sampleBlocks.fs.used sampleVolume b = true := by
          decide +kernel
        exact hall }
  lt := fun b hb => lt_trans (Finset.mem_range.mp hb) (by decide)
  inUse_iff := by
    have hall : ∀ b < 64, b ∈ sampleBlocks.inUse ↔ sampleBlocks.fs.used sampleVolume b = true := by
      decide +kernel
    exact hall

instance (v : Volume) (r : BlockRun) : (op : BlockOp) → Decidable (op.Legal v r)
  | .alloc => inferInstanceAs (Decidable True)
  | .free _ => inferInstanceAs (Decidable (_ ∧ _))

theorem blocks_counted_sample :
    ∃ r, Run (BlockRun.step sampleVolume.m) (fun r op => op.Legal sampleVolume r) sampleBlocks
        [.free 10, .alloc, .alloc] r ∧ r.inUse = Finset.range 12 ∧
      r.fs.sFreeBlocksCount = 52 ∧ BlocksConsistent sampleVolume r := by
  obtain ⟨r, hrun, huse, hfree⟩ := exists_run
    (P := fun r : BlockRun => r.inUse = Finset.range 12 ∧ r.fs.sFreeBlocksCount = 52)
    (show (execIf (BlockRun.step sampleVolume.m) (fun r op => op.Legal sampleVolume r) sampleBlocks
      [.free 10, .alloc, .alloc]).any _ = true by decide +kernel)
  exact ⟨r, hrun, huse, hfree, (blocks_counted sampleBlocks_consistent hrun).1⟩

end BananaOS.Ext2
