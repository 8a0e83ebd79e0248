import BananaOS.Ext2.Disk
import BananaOS.Mkfs.Builder

/-!
# Where the metadata lie

The builder computes the place of every table from four numbers: the size, the block size and the
numbers of blocks and inodes per group.  Every place is a range of bytes of the image
(`Region.bytes`), and a layout is right if no two ranges meet, all are inside the image, and the
constructor has marked every block that a range touches.
-/

namespace BananaOS.Mkfs

open Ext2

/-! ## What the constructor leaves -/

theorem markRange_eq_some {total lo hi : ℕ} {bitmap bitmap' : ℕ → Bool}
    (h : markRange total lo hi bitmap = some bitmap') :
    (lo < hi → hi ≤ total) ∧ ∀ b, bitmap' b = true ↔ bitmap b = true ∨ (lo ≤ b ∧ b < hi) := by
  simp only [markRange] at h
  split_ifs at h with hempty htotal
  · cases h
    exact ⟨fun hlt => by omega, fun b => by
      rw [or_iff_left]
      omega⟩
  · cases h
    refine ⟨fun _ => by omega, fun b => ?_⟩
    rw [Bool.or_eq_true, Bool.and_eq_true, decide_eq_true_iff, decide_eq_true_iff]

theorem foldlM_markRange {p : Params} (gs : List ℕ) {bitmap bitmap' : ℕ → Bool}
    (h : gs.foldlM (fun bitmap g =>
      markRange p.totalBlocks (p.bb g) (p.it g + p.itBlocks) bitmap) bitmap = some bitmap') :
    (∀ g ∈ gs, p.it g + p.itBlocks ≤ p.totalBlocks) ∧
      ∀ b, bitmap' b = true ↔
        bitmap b = true ∨ ∃ g ∈ gs, p.bb g ≤ b ∧ b < p.it g + p.itBlocks := by
  induction gs generalizing bitmap with
  | nil =>
    cases h
    exact ⟨List.forall_mem_nil _, fun b => by simp only [List.not_mem_nil, false_and, exists_false,
      or_false]⟩
  | cons g gs ih =>
    rw [List.foldlM_cons] at h
    obtain ⟨mid, hmid, hrest⟩ := Option.bind_eq_some_iff.mp h
    obtain ⟨hfit, hmark⟩ := markRange_eq_some hmid
    obtain ⟨hfits, hmarks⟩ := ih hrest
    constructor
    · intro g' hg'
      rcases List.mem_cons.mp hg' with rfl | hg'
      · exact hfit (by simp only [Params.it]; omega)
      · exact hfits g' hg'
    · intro b
      rw [hmarks b, hmark b, List.exists_mem_cons_iff, or_assoc]

structure Made (p : Params) (s : Builder) : Prop where
  blockSize_pos : 0 < p.blockSize
  blocksPerGroup_pos : 0 < p.blocksPerGroup
  totalBlocks_pos : 0 < p.totalBlocks
  inodes : 12 ≤ p.totalInodes
  group_inside : ∀ g < p.groupCount, p.it g + p.itBlocks ≤ p.totalBlocks
  head_inside : p.gdtStart + p.gdtBlocks ≤ p.totalBlocks
  marked : ∀ b, s.blockBitmap b = true ↔
    b = 0 ∨ (p.sbBlock ≤ b ∧ b < p.gdtStart + p.gdtBlocks) ∨
      ∃ g < p.groupCount, p.bb g ≤ b ∧ b < p.it g + p.itBlocks
  img : s.img = ⟨p.totalBlocks * p.blockSize, Bytes.zero⟩
  inodeBitmap : s.inodeBitmap = fun n => decide (n < 12)
  inodes_zero : s.inodes = fun _ => Bytes.zero
  nextIno : s.nextIno = 12

theorem one_le_gdtBlocks (p : Params) : 1 ≤ p.gdtBlocks := Nat.le_max_left ..

theorem sbBlock_le_gdtStart (p : Params) : p.sbBlock ≤ p.gdtStart :=
  Nat.div_le_div_right (by omega)

theorem init_made {p : Params} {s : Builder} (h : Builder.init p = some s) : Made p s := by
  obtain ⟨harg, h⟩ := Option.ite_none_left_eq_some.mp h
  obtain ⟨groups, hgroups, h⟩ := Option.bind_eq_some_iff.mp h
  obtain ⟨bitmap, hbitmap, h⟩ := Option.bind_eq_some_iff.mp h
  obtain ⟨hcount, h⟩ := Option.ite_none_left_eq_some.mp h
  cases h
  obtain ⟨hfits, hmarks⟩ := foldlM_markRange _ hgroups
  obtain ⟨hhead, hmark⟩ := markRange_eq_some hbitmap
  have hlt : p.sbBlock < p.gdtStart + p.gdtBlocks := by
    have h1 := one_le_gdtBlocks p
    have h2 := sbBlock_le_gdtStart p
    omega
  refine ⟨by omega, by omega, by omega, by omega, fun g hg => hfits g (List.mem_range.mpr hg),
    hhead hlt, fun b => ?_, rfl, rfl, rfl, rfl⟩
  by_cases hb : b = 0
  · simp only [hb, Function.update_self, true_or]
  · simp only [Function.update_of_ne hb, hmark b, hmarks b, List.mem_range, Bool.false_eq_true,
      false_or, hb]
    exact or_comm

/-! ## Regions -/

inductive Part where
  | blockBitmap
  | inodeBitmap
  | inodeTable

def Part.offset : Part → ℕ
  | .blockBitmap => 0
  | .inodeBitmap => 1
  | .inodeTable => 2

def Part.len (p : Params) : Part → ℕ
  | .blockBitmap => p.blockSize
  | .inodeBitmap => p.blockSize
  | .inodeTable => p.inodesPerGroup * 128

inductive Region where
  | superblock
  | gdt
  | group (g : ℕ) (part : Part)

namespace Region

variable (p : Params)

def Valid : Region → Prop
  | .group g _ => g < p.groupCount
  | _ => True

def start : Region → ℕ
  | .superblock => 1024
  | .gdt => p.gdtStart * p.blockSize
  | .group g part => (p.bb g + part.offset) * p.blockSize

def len : Region → ℕ
  | .superblock => 1024
  | .gdt => p.groupCount * 32
  | .group _ part => part.len p

def bytes (r : Region) : Set ℕ := Set.Ico (r.start p) (r.start p + r.len p)

end Region

def mountOf (p : Params) : Mount where
  mounted := true
  blkSize := p.blockSize
  inoSize := 128
  inodesPerGroup := p.inodesPerGroup
  blocksPerGroup := p.blocksPerGroup
  sInodesCount := p.totalInodes
  sBlocksCount := p.totalBlocks

structure LayoutRight (p : Params) (used : ℕ → Bool) : Prop where
  /-- The driver looks for a descriptor where the builder puts it. -/
  gdesc : ∀ g < p.groupCount, gdescBlock (mountOf p) g * p.blockSize + gdescOff (mountOf p) g =
    Region.gdt.start p + g * 32
  disjoint : ∀ r r' : Region, r.Valid p → r'.Valid p → r ≠ r' → Disjoint (r.bytes p) (r'.bytes p)
  inside : ∀ r : Region, r.Valid p → r.bytes p ⊆ Set.Iio (p.totalBlocks * p.blockSize)
  marked : ∀ r : Region, r.Valid p → ∀ b,
    (Set.Ico (b * p.blockSize) ((b + 1) * p.blockSize) ∩ r.bytes p).Nonempty → used b = true

/-- The arguments fit: an inode table fills its blocks, the descriptors have room before the table
that comes next, and a group that is not the last has room for its metadata. -/
structure LayoutFits (p : Params) : Prop where
  table_whole : p.inodesPerGroup * 128 % p.blockSize = 0
  gdt_fits : p.groupCount * 32 ≤ if p.blockSize = 2048 then 2048 else 1024
  group_fits : p.groupCount = 1 ∨ p.gdtStart + 3 + p.itBlocks ≤ p.blocksPerGroup

def KnownSize (p : Params) : Prop := p.blockSize = 1024 ∨ p.blockSize = 2048 ∨ p.blockSize = 4096

variable {p : Params} {s : Builder} {used : ℕ → Bool}

variable {r : Region} {j g : ℕ} {part : Part}

theorem Region.mem_bytes : j ∈ r.bytes p ↔ r.start p ≤ j ∧ j < r.start p + r.len p := Set.mem_Ico

namespace Made

variable (hm : Made p s)

include hm

theorem one_le_groupCount : 0 < p.groupCount := by
  rw [Nat.pos_iff_ne_zero]
  intro h
  have hino := hm.inodes
  rw [Params.totalInodes, h, Nat.zero_mul] at hino
  omega

theorem inodesPerGroup_pos : 0 < p.inodesPerGroup := by
  rw [Nat.pos_iff_ne_zero]
  intro h
  have hino := hm.inodes
  rw [Params.totalInodes, h, Nat.mul_zero] at hino
  omega

theorem covered_head (hB : KnownSize p) {b : ℕ} (hb : 0 < b)
    (hhi : b < p.gdtStart + p.gdtBlocks) :
    b * p.blockSize ∈ Region.superblock.bytes p ∨ b * p.blockSize ∈ Region.gdt.bytes p := by
  have hcount := hm.one_le_groupCount
  simp only [Region.mem_bytes, Region.start, Region.len]
  rcases Nat.lt_or_ge b p.gdtStart with hlt | hge
  · left
    simp only [Params.gdtStart] at hlt
    rcases hB with hB | hB | hB <;> rw [hB] at hlt ⊢ <;> omega
  · right
    refine ⟨Nat.mul_le_mul_right _ hge, ?_⟩
    simp only [Params.gdtBlocks] at hhi
    rcases hB with hB | hB | hB <;> rw [hB] at hhi ⊢ <;> omega

theorem covered_group (hB : KnownSize p) {b : ℕ} (hlo : p.bb g ≤ b)
    (hhi : b < p.it g + p.itBlocks) :
    ∃ part, b * p.blockSize ∈ Region.bytes p (.group g part) := by
  simp only [Params.it] at hhi
  rcases Nat.lt_or_ge b (p.bb g + 2) with hlt | hge
  · obtain rfl | rfl : b = p.bb g ∨ b = p.bb g + 1 := by omega
    · exact ⟨.blockBitmap, le_rfl, Nat.lt_add_of_pos_right hm.blockSize_pos⟩
    · exact ⟨.inodeBitmap, le_rfl, Nat.lt_add_of_pos_right hm.blockSize_pos⟩
  · refine ⟨.inodeTable, Nat.mul_le_mul_right _ hge, ?_⟩
    simp only [Region.start, Region.len, Part.offset, Part.len]
    simp only [Params.itBlocks] at hhi
    rcases hB with hB | hB | hB <;> rw [hB] at hhi ⊢ <;> omega

end Made

/-! ## A right layout needs arguments that fit -/

theorem LayoutRight.eq_of_mem (hr : LayoutRight p used) {r' : Region}
    (hj : j ∈ r.bytes p) (hj' : j ∈ r'.bytes p) (hv : r.Valid p) (hv' : r'.Valid p) : r = r' := by
  by_contra hne
  exact Set.disjoint_left.mp (hr.disjoint r r' hv hv' hne) hj hj'

theorem LayoutRight.table_whole (hr : LayoutRight p s.blockBitmap) (hm : Made p s)
    (hB : KnownSize p) : p.inodesPerGroup * 128 % p.blockSize = 0 := by
  by_contra hrest
  have hv : Region.Valid p (.group 0 .inodeTable) := hm.one_le_groupCount
  have htail : (p.it 0 + p.itBlocks) * p.blockSize ∈ Region.bytes p (.group 0 .inodeTable) := by
    rw [Region.mem_bytes]
    simp only [Region.start, Region.len, Part.offset, Part.len, Params.it, Params.itBlocks]
    rcases hB with hB | hB | hB <;> rw [hB] at hrest ⊢ <;> omega
  have hused : s.blockBitmap (p.it 0 + p.itBlocks) = true := by
    refine hr.marked _ hv _ ⟨_, ⟨le_rfl, ?_⟩, htail⟩
    exact Nat.mul_lt_mul_of_pos_right (Nat.lt_succ_self _) hm.blockSize_pos
  have hpos : 0 < p.it 0 + p.itBlocks := by
    simp only [Params.it]
    omega
  rcases (hm.marked _).mp hused with h0 | ⟨-, hhi⟩ | ⟨g, hg, hlo, hhi⟩
  · omega
  · rcases hm.covered_head hB hpos hhi with hsb | hgdt
    · exact nomatch hr.eq_of_mem hsb htail trivial hv
    · exact nomatch hr.eq_of_mem hgdt htail trivial hv
  · -- Marked for a group: it is group 0, whose marks end before the block.
    obtain ⟨part, hpart⟩ := hm.covered_group hB hlo hhi
    have hsame := hr.eq_of_mem hpart htail hg hv
    cases hsame
    omega

theorem LayoutRight.gdt_fits (hr : LayoutRight p used) (hm : Made p s) (hB : KnownSize p) :
    p.groupCount * 32 ≤ if p.blockSize = 2048 then 2048 else 1024 := by
  have hcount := hm.one_le_groupCount
  by_contra hbig
  -- What comes next, and its first byte.
  have hnext : ∃ r : Region, r.Valid p ∧ r ≠ .gdt ∧ r.start p ∈ r.bytes p ∧
      r.start p ∈ Region.gdt.bytes p := by
    rcases hB with hB | hB | hB <;> simp only [hB, reduceIte, Nat.reduceEqDiff] at hbig
    · refine ⟨.group 0 .blockBitmap, hcount, nofun, ?_⟩
      simp only [Region.mem_bytes, Region.start, Region.len, Part.offset, Part.len, Params.bb,
        Params.gdtStart, hB, reduceIte]
      omega
    · refine ⟨.group 0 .blockBitmap, hcount, nofun, ?_⟩
      simp only [Region.mem_bytes, Region.start, Region.len, Part.offset, Part.len, Params.bb,
        Params.gdtStart, hB, reduceIte]
      omega
    · refine ⟨.superblock, trivial, nofun, ?_⟩
      simp only [Region.mem_bytes, Region.start, Region.len, Params.gdtStart, hB]
      omega
  obtain ⟨r, hv, hne, hself, hgdt⟩ := hnext
  exact hne (hr.eq_of_mem hself hgdt hv trivial)

theorem LayoutRight.group_fits (hr : LayoutRight p s.blockBitmap) (hm : Made p s)
    (hB : KnownSize p) : p.groupCount = 1 ∨ p.gdtStart + 3 + p.itBlocks ≤ p.blocksPerGroup := by
  have hcount := hm.one_le_groupCount
  by_contra! hshort
  obtain ⟨hone, hshort⟩ := hshort
  have hv : Region.Valid p (.group 1 .blockBitmap) := by
    simp only [Region.Valid]
    omega
  have hself : p.blocksPerGroup * p.blockSize ∈ Region.bytes p (.group 1 .blockBitmap) := by
    rw [Region.mem_bytes]
    simp only [Region.start, Region.len, Part.offset, Part.len, Params.bb, one_ne_zero, reduceIte,
      Nat.one_mul, Nat.add_zero]
    exact ⟨le_rfl, Nat.lt_add_of_pos_right hm.blockSize_pos⟩
  rcases Nat.lt_or_ge p.gdtStart p.blocksPerGroup with hlt | hge
  · have hlo : p.bb 0 ≤ p.blocksPerGroup := by
      simp only [Params.bb, reduceIte]
      omega
    have hhi : p.blocksPerGroup < p.it 0 + p.itBlocks := by
      simp only [Params.it, Params.bb, reduceIte]
      omega
    obtain ⟨part, hpart⟩ := hm.covered_group hB hlo hhi
    exact nomatch hr.eq_of_mem hpart hself hcount hv
  · have hhi : p.blocksPerGroup < p.gdtStart + p.gdtBlocks := by
      have h1 := one_le_gdtBlocks p
      omega
    rcases hm.covered_head hB hm.blocksPerGroup_pos hhi with hsb | hgdt
    · exact nomatch hr.eq_of_mem hsb hself trivial hv
    · exact nomatch hr.eq_of_mem hgdt hself trivial hv

/-! ## Arguments that fit give a right layout -/

namespace LayoutFits

variable (hf : LayoutFits p)

include hf

theorem table_len : p.itBlocks * p.blockSize = p.inodesPerGroup * 128 := by
  rw [Params.itBlocks]
  exact Nat.div_mul_cancel (Nat.dvd_of_mod_eq_zero hf.table_whole)

theorem group_stop {g' : ℕ} (hlt : g < g') (hg' : g' < p.groupCount) :
    p.it g + p.itBlocks ≤ p.bb g' := by
  have hfit := hf.group_fits.resolve_left (by omega)
  have hnext : (g + 1) * p.blocksPerGroup ≤ g' * p.blocksPerGroup := Nat.mul_le_mul_right _ hlt
  rw [Nat.add_one_mul] at hnext
  simp only [Params.it, Params.bb, if_neg (show g' ≠ 0 by omega)]
  split_ifs with h0
  · subst h0
    omega
  · omega

theorem gdtStart_lt_bb (hg : g < p.groupCount) : p.gdtStart + 1 ≤ p.bb g := by
  simp only [Params.bb]
  split_ifs with h0
  · exact le_rfl
  · have hfit := hf.group_fits.resolve_left (by omega)
    have hle : 1 * p.blocksPerGroup ≤ g * p.blocksPerGroup := Nat.mul_le_mul_right _ (by omega)
    omega

theorem group_within (hj : j ∈ Region.bytes p (.group g part)) :
    p.bb g * p.blockSize ≤ j ∧ j < (p.it g + p.itBlocks) * p.blockSize := by
  have hlen := hf.table_len
  rw [Region.mem_bytes] at hj
  cases part <;>
    simp only [Region.start, Region.len, Part.offset, Part.len, Params.it, Nat.add_mul] at hj ⊢ <;>
    omega

omit hf in
theorem part_eq {part' : Part} (hj : j ∈ Region.bytes p (.group g part))
    (hj' : j ∈ Region.bytes p (.group g part')) : part = part' := by
  rw [Region.mem_bytes] at hj hj'
  cases part <;> cases part' <;> first
    | rfl
    | (simp only [Region.start, Region.len, Part.offset, Part.len, Nat.add_mul] at hj hj'
       omega)

theorem group_eq {g' : ℕ} {part' : Part} (hg : g < p.groupCount)
    (hg' : g' < p.groupCount) (hj : j ∈ Region.bytes p (.group g part))
    (hj' : j ∈ Region.bytes p (.group g' part')) : g = g' := by
  obtain ⟨hlo, hhi⟩ := hf.group_within hj
  obtain ⟨hlo', hhi'⟩ := hf.group_within hj'
  rcases Nat.lt_trichotomy g g' with hlt | heq | hgt
  · have hstop := Nat.mul_le_mul_right p.blockSize (hf.group_stop hlt hg')
    omega
  · exact heq
  · have hstop := Nat.mul_le_mul_right p.blockSize (hf.group_stop hgt hg)
    omega

variable (hB : KnownSize p)

include hB

theorem head_stop (hr : r = .superblock ∨ r = .gdt) (hj : j ∈ r.bytes p) :
    j < (p.gdtStart + 1) * p.blockSize := by
  have hgdt := hf.gdt_fits
  rw [Region.mem_bytes] at hj
  rcases hr with rfl | rfl <;> simp only [Region.start, Region.len, Params.gdtStart] at hj ⊢ <;>
    rcases hB with hB | hB | hB <;> simp only [hB, reduceIte, Nat.reduceEqDiff] at hgdt hj ⊢ <;>
    omega

theorem not_mem_gdt (hj : j ∈ Region.superblock.bytes p) : j ∉ Region.gdt.bytes p := by
  have hgdt := hf.gdt_fits
  rw [Region.mem_bytes] at hj ⊢
  simp only [Region.start, Region.len, Params.gdtStart] at hj ⊢
  rcases hB with hB | hB | hB <;> simp only [hB, reduceIte, Nat.reduceEqDiff] at hgdt ⊢ <;> omega

theorem not_mem_group (hr : r = .superblock ∨ r = .gdt)
    (hg : g < p.groupCount) (hj : j ∈ r.bytes p) : j ∉ Region.bytes p (.group g part) := by
  intro hj'
  have hstop := hf.head_stop hB hr hj
  have hle := Nat.mul_le_mul_right p.blockSize (hf.gdtStart_lt_bb hg)
  have hlo := (hf.group_within hj').1
  omega

theorem eq_of_mem {r' : Region} (hj : j ∈ r.bytes p) (hj' : j ∈ r'.bytes p)
    (hv : r.Valid p) (hv' : r'.Valid p) : r = r' := by
  match r, r' with
  | .superblock, .superblock => rfl
  | .superblock, .gdt => exact absurd hj' (hf.not_mem_gdt hB hj)
  | .gdt, .superblock => exact absurd hj (hf.not_mem_gdt hB hj')
  | .gdt, .gdt => rfl
  | .superblock, .group g part => exact absurd hj' (hf.not_mem_group hB (.inl rfl) hv' hj)
  | .gdt, .group g part => exact absurd hj' (hf.not_mem_group hB (.inr rfl) hv' hj)
  | .group g part, .superblock => exact absurd hj (hf.not_mem_group hB (.inl rfl) hv hj')
  | .group g part, .gdt => exact absurd hj (hf.not_mem_group hB (.inr rfl) hv hj')
  | .group g part, .group g' part' =>
    obtain rfl := hf.group_eq hv hv' hj hj'
    rw [part_eq hj hj']

theorem marked_of_mem (hm : Made p s) {b : ℕ} (hv : r.Valid p)
    (hj : j ∈ r.bytes p) (hlo : b * p.blockSize ≤ j) (hhi : j < (b + 1) * p.blockSize) :
    s.blockBitmap b = true := by
  have hhead : r = .superblock ∨ r = .gdt → s.blockBitmap b = true := by
    intro hr
    have hb : b < p.gdtStart + 1 :=
      Nat.lt_of_mul_lt_mul_right (hlo.trans_lt (hf.head_stop hB hr hj))
    have hone := one_le_gdtBlocks p
    rcases Nat.lt_or_ge b p.sbBlock with hlt | hge
    · -- Block 0 is marked by itself.
      refine (hm.marked b).mpr (.inl ?_)
      simp only [Params.sbBlock] at hlt
      rcases hB with hB | hB | hB <;> rw [hB] at hlt <;> omega
    · exact (hm.marked b).mpr (.inr (.inl ⟨hge, by omega⟩))
  match r with
  | .superblock => exact hhead (.inl rfl)
  | .gdt => exact hhead (.inr rfl)
  | .group g part =>
    obtain ⟨hfirst, hlast⟩ := hf.group_within hj
    refine (hm.marked b).mpr (.inr (.inr ⟨g, hv, ?_, ?_⟩))
    · exact Nat.lt_succ_iff.mp (Nat.lt_of_mul_lt_mul_right (hfirst.trans_lt hhi))
    · exact Nat.lt_of_mul_lt_mul_right (hlo.trans_lt hlast)

theorem inside_of_mem (hm : Made p s) (hv : r.Valid p)
    (hj : j ∈ r.bytes p) : j < p.totalBlocks * p.blockSize := by
  have hhead : r = .superblock ∨ r = .gdt → j < p.totalBlocks * p.blockSize := by
    intro hr
    have hone := one_le_gdtBlocks p
    have hin := hm.head_inside
    exact (hf.head_stop hB hr hj).trans_le (Nat.mul_le_mul_right _ (by omega))
  match r with
  | .superblock => exact hhead (.inl rfl)
  | .gdt => exact hhead (.inr rfl)
  | .group g part =>
    exact (hf.group_within hj).2.trans_le (Nat.mul_le_mul_right _ (hm.group_inside g hv))

end LayoutFits

theorem gdesc_place (hB : KnownSize p) (g : ℕ) :
    gdescBlock (mountOf p) g * p.blockSize + gdescOff (mountOf p) g =
      Region.gdt.start p + g * 32 := by
  simp only [gdescBlock, gdescOff, gdtStartBlock, mountOf, Region.start, Params.gdtStart]
  rcases hB with hB | hB | hB <;> rw [hB] <;> omega

theorem LayoutFits.right (hf : LayoutFits p) (hB : KnownSize p) (hm : Made p s) :
    LayoutRight p s.blockBitmap := by
  refine ⟨fun g _ => gdesc_place hB g, fun r r' hv hv' hne => ?_, fun r hv j hj => ?_,
    fun r hv b ⟨j, hb, hj⟩ => ?_⟩
  · rw [Set.disjoint_left]
    intro j hj hj'
    exact hne (hf.eq_of_mem hB hj hj' hv hv')
  · exact hf.inside_of_mem hB hm hv hj
  · exact hf.marked_of_mem hB hm hv hj hb.1 hb.2

/-- **The layout is right exactly if the arguments fit.** -/
theorem layout_right_iff (p : Params) (s : Builder) (hB : KnownSize p)
    (hinit : Builder.init p = some s) : LayoutRight p s.blockBitmap ↔ LayoutFits p := by
  have hm := init_made hinit
  constructor
  · intro hr
    exact ⟨hr.table_whole hm hB, hr.gdt_fits hm hB, hr.group_fits hm hB⟩
  · intro hf
    exact hf.right hB hm

def smallImage : Params := ⟨256, 1024, 32, 8192⟩

theorem layout_right_small : ∃ s, Builder.init smallImage = some s ∧
    LayoutRight smallImage s.blockBitmap := by
  obtain ⟨s, hs⟩ := Option.isSome_iff_exists.mp
    (show (Builder.init smallImage).isSome = true by decide +kernel)
  refine ⟨s, hs, (layout_right_iff smallImage s (.inl rfl) hs).mpr ⟨by decide, by decide, ?_⟩⟩
  exact .inl (by decide)

/-- An image of 64 blocks.  Its inode table, of 21 inodes, takes two and a half blocks. -/
def tornTable : Params := ⟨64, 1024, 21, 8192⟩

/-- **The builder makes an image whose inode table ends in a free block.** -/
theorem torn_table_not_right : (build tornTable []).isSome = true ∧
    ∃ s, Builder.init tornTable = some s ∧ ¬ LayoutRight tornTable s.blockBitmap := by
  refine ⟨by decide +kernel, ?_⟩
  obtain ⟨s, hs⟩ := Option.isSome_iff_exists.mp
    (show (Builder.init tornTable).isSome = true by decide +kernel)
  refine ⟨s, hs, fun hr => ?_⟩
  have hfree : (Builder.init tornTable).map (fun s => s.blockBitmap 7) = some false := by
    decide +kernel
  rw [hs] at hfree
  have hused := hr.marked (.group 0 .inodeTable) (show 0 < tornTable.groupCount by decide) 7
    ⟨7 * 1024, by decide +kernel, Region.mem_bytes.mpr (by decide +kernel)⟩
  rw [Option.map_some, hused] at hfree
  cases hfree

end BananaOS.Mkfs
