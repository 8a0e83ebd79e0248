import BananaOS.Ext2.Record
import BananaOS.Mkfs.Flush

/-!
# Builder and driver on inodes

The driver mounts the image with the parameters of the builder (`mount_flushed`) and finds the
descriptors.  For the place of an inode the two have different formulas.  Both take the index
`(ino - 1) % ipg`.  The driver takes the group `(ino - 1) / ipg`, and so does the builder's own
`_group_of`, which nothing calls: the loop of `flush` runs over the inodes from `g * ipg` on, and
that is the group `ino / ipg`.  The two differ when `ipg` divides `ino`.
-/

namespace BananaOS.Mkfs

open Bytes FailState Ext2 Patch

variable {p : Params} {s s₀ s' : Builder} {img : ByteArr}

/-! ## Mounting -/

/-- The driver's state after `ext2_mount`. -/
def imageFs (m : Mount) (img : ByteArr) : Fs where
  disk := fun b => drop img.byte (b * m.blkSize)
  fault := fun _ => none
  blkbuf := zero
  indbuf := zero
  sFreeBlocksCount := rd32 img.byte (1024 + 0x0C)
  sFreeInodesCount := rd32 img.byte (1024 + 0x10)
  dcache := fun _ => ⟨0, 0, 0, [], false⟩
  dcacheNext := 0
  now := 0

structure SuperReads (p : Params) (sb : Bytes) : Prop where
  inodes : rd32 sb 0x00 = p.totalInodes % 2 ^ 32
  blocks : rd32 sb 0x04 = p.totalBlocks % 2 ^ 32
  log : rd32 sb 0x18 = (logBlock p.blockSize).getD 0 % 2 ^ 32
  blocksPerGroup : rd32 sb 0x20 = p.blocksPerGroup % 2 ^ 32
  inodesPerGroup : rd32 sb 0x28 = p.inodesPerGroup % 2 ^ 32
  magic : rd16 sb 0x38 = 0xEF53
  inodeSize : rd16 sb 0x58 = 128

variable {ino : ℕ}

theorem super_reads : SuperReads p (s.super p) := by
  constructor <;>
    simp (disch := decide) only [Builder.super, superBytes, rd32_wr32_of_disjoint,
      rd32_wr16_of_disjoint, rd16_wr32_of_disjoint, rd16_wr16_of_disjoint, rd32_wr32, rd16_wr16] <;>
    rfl

theorem SuperReads.congr {sb sb' : Bytes} (h : SuperReads p sb)
    (he : ∀ k < 1024, sb' k = sb k) : SuperReads p sb' := by
  have h32 : ∀ {o}, o + 4 ≤ 1024 → rd32 sb' o = rd32 sb o := fun ho =>
    rd32_congr fun k hk => he _ (by omega)
  have h16 : ∀ {o}, o + 2 ≤ 1024 → rd16 sb' o = rd16 sb o := fun ho =>
    rd16_congr fun k hk => he _ (by omega)
  exact ⟨(h32 (by decide)).trans h.inodes, (h32 (by decide)).trans h.blocks,
    (h32 (by decide)).trans h.log, (h32 (by decide)).trans h.blocksPerGroup,
    (h32 (by decide)).trans h.inodesPerGroup, (h16 (by decide)).trans h.magic,
    (h16 (by decide)).trans h.inodeSize⟩

theorem mount_flushed (hm : Made p s₀) (hf : LayoutFits p) (hfit : FlushFits p s) :
    mount (drop (s.flushed p).byte 1024) = some (mountOf p) := by
  have hsb : SuperReads p (drop (s.flushed p).byte 1024) := super_reads.congr fun k hk =>
    flushed_piece hm hf hfit.size (w := .superblock) trivial hk
  have hsize : 1024 * 2 ^ rd32 (drop (s.flushed p).byte 1024) 0x18 % 2 ^ 32 = p.blockSize := by
    rw [hsb.log]
    rcases hfit.size with h | h | h <;> rw [h] <;> rfl
  have hle : ¬ 4096 < p.blockSize := by
    rcases hfit.size with h | h | h <;> omega
  simp only [mount, hsize, hsb.magic, hsb.inodeSize, hsb.inodes, hsb.blocks, hsb.blocksPerGroup,
    hsb.inodesPerGroup, Nat.mod_eq_of_lt hfit.super.totalInodes,
    Nat.mod_eq_of_lt hfit.super.totalBlocks, Nat.mod_eq_of_lt hfit.super.blocksPerGroup,
    Nat.mod_eq_of_lt hfit.super.inodesPerGroup, if_neg hle]
  rfl

theorem bgInodeTable_flushed (hm : Made p s₀) (hf : LayoutFits p) (hfit : FlushFits p s) {g : ℕ}
    (hg : g < p.groupCount) :
    bgInodeTable (drop (s.flushed p).byte (Region.gdt.start p + g * 32)) = p.it g := by
  have hbyte : ∀ k < 32, drop (s.flushed p).byte (Region.gdt.start p + g * 32) k =
      s.gdesc p g k := by
    intro k hk
    have hlen : g * 32 + k < Piece.len p .gdt := by
      simp only [Piece.len]
      omega
    have h := flushed_piece (s := s) hm hf hfit.size (w := .gdt) trivial hlen
    rw [← Nat.add_assoc] at h
    refine h.trans ?_
    simp only [Piece.data, Builder.gdtBytes]
    rw [show (g * 32 + k) / 32 = g by omega, show (g * 32 + k) % 32 = k by omega, if_pos hg]
  have hit : p.it g < 2 ^ 32 :=
    (hfit.gdesc g (List.mem_range'_1.mpr ⟨Nat.zero_le _, by omega⟩)).it
  rw [bgInodeTable, rd32_congr fun k hk => hbyte (8 + k) (by omega)]
  simp (disch := decide) only [Builder.gdesc, rd32_wr16_of_disjoint, rd32_wr32]
  exact Nat.mod_eq_of_lt hit

/-! ## The driver's place of an inode -/

/-- The byte where `ext2_read_inode` starts to read. -/
def inodePlace (m : Mount) (ino : ℕ) : Ext2M ℕ := do
  let gd ← readGdesc m (inoGroup m ino)
  pure (inoOff m (bgInodeTable gd) ino)

theorem physBlock_mountOf (hB : KnownSize p) {b : ℕ} (h : b * p.blockSize < 2 ^ 32) :
    physBlock (mountOf p) b = b := by
  simp only [physBlock, mountOf]
  rcases hB with hB | hB | hB <;> rw [hB] at h ⊢ <;> omega

theorem readGdesc_image (hf : LayoutFits p) (hB : KnownSize p) {g : ℕ} (hg : g < p.groupCount)
    (img : ByteArr) :
    ∃ buf, readGdesc (mountOf p) g (imageFs (mountOf p) img) =
      (some (drop img.byte (Region.gdt.start p + g * 32)),
        { imageFs (mountOf p) img with blkbuf := buf }) := by
  have hplace := gdesc_place hB g
  have hgdt := hf.gdt_fits
  have hsmall : gdescBlock (mountOf p) g * p.blockSize < 2 ^ 32 := by
    have hstart : Region.gdt.start p ≤ 2048 := Nat.div_mul_le_self ..
    split_ifs at hgdt <;> omega
  refine ⟨drop img.byte (gdescBlock (mountOf p) g * p.blockSize), ?_⟩
  have hread : readBlk (mountOf p) (gdescBlock (mountOf p) g) (imageFs (mountOf p) img) =
      (some (), { imageFs (mountOf p) img with
        blkbuf := drop img.byte (gdescBlock (mountOf p) g * p.blockSize) }) := by
    simp only [readBlk, imageFs, physBlock_mountOf hB hsmall]
    rfl
  simp only [readGdesc]
  rw [bind_of_some hread, gets_run, ← hplace]
  congr 2
  ext1 k
  exact congrArg img.byte (Nat.add_assoc ..).symm

variable (p) in
/-- Where the driver would read an inode, if offsets were not cut off at 32 bits. -/
def driverOff (ino : ℕ) : ℕ :=
  p.it ((ino - 1) / p.inodesPerGroup) * p.blockSize + (ino - 1) % p.inodesPerGroup * 128

variable (p) in
def builderOff (ino : ℕ) : ℕ := Piece.off p (.inode (ino / p.inodesPerGroup) ino)

theorem inoGroup_lt (hm : Made p s₀) (hlt : ino < p.totalInodes) :
    inoGroup (mountOf p) ino < p.groupCount := by
  simp only [inoGroup, mountOf]
  rw [Nat.div_lt_iff_lt_mul hm.inodesPerGroup_pos]
  exact (Nat.sub_le ..).trans_lt hlt

theorem inodePlace_flushed (hm : Made p s₀) (hf : LayoutFits p) (hfit : FlushFits p s)
    (hlt : ino < p.totalInodes) :
    (inodePlace (mountOf p) ino (imageFs (mountOf p) (s.flushed p))).1 =
      some (driverOff p ino % 2 ^ 32) := by
  have hg := inoGroup_lt hm hlt
  obtain ⟨buf, hread⟩ := readGdesc_image hf hfit.size hg (s.flushed p)
  simp only [inodePlace]
  rw [bind_of_some hread, pure_run, bgInodeTable_flushed hm hf hfit hg]
  rfl

theorem readInode_flushed (hm : Made p s₀) (hf : LayoutFits p) (hfit : FlushFits p s)
    (h0 : 0 < ino) (hlt : ino < p.totalInodes) :
    (readInode (mountOf p) ino (imageFs (mountOf p) (s.flushed p))).1 =
      some (Inode.decode (s.flushed p).byte (driverOff p ino % 2 ^ 32)) := by
  have hg := inoGroup_lt hm hlt
  obtain ⟨buf, hread⟩ := readGdesc_image hf hfit.size hg (s.flushed p)
  have hoff : inoOff (mountOf p) (p.it (inoGroup (mountOf p) ino)) ino =
      driverOff p ino % 2 ^ 32 := rfl
  have hsmall : driverOff p ino % 2 ^ 32 / p.blockSize * p.blockSize < 2 ^ 32 :=
    (Nat.div_mul_le_self ..).trans_lt (Nat.mod_lt _ (by decide))
  have hblock : readBlk (mountOf p) (driverOff p ino % 2 ^ 32 / p.blockSize)
      { imageFs (mountOf p) (s.flushed p) with blkbuf := buf } =
      (some (), { imageFs (mountOf p) (s.flushed p) with
        blkbuf := drop (s.flushed p).byte
          (driverOff p ino % 2 ^ 32 / p.blockSize * p.blockSize) }) := by
    simp only [readBlk, imageFs, physBlock_mountOf hfit.size hsmall]
    rfl
  have hnot : ¬ ((mountOf p).mounted = false ∨ ino = 0) := by
    rintro (hmounted | h)
    · cases hmounted
    · omega
  simp only [readInode]
  rw [if_neg hnot, bind_of_some hread, bgInodeTable_flushed hm hf hfit hg, hoff]
  refine (congrArg Prod.fst (bind_of_some hblock)).trans (congrArg some ?_)
  refine Inode.decode_congr fun k _ => congrArg (s.flushed p).byte ?_
  rw [← Nat.add_assoc]
  exact congrArg (· + k) (Nat.div_add_mod' ..)

/-! ## Agreement -/

def recordAt (o : ℕ) : Set ℕ := Set.Ico o (o + 128)

/-- **Builder and driver agree on inode `ino`**: the driver reads the bytes that the builder wrote
for it, and the builder writes no other inode there. -/
def InodeAgrees (p : Params) (inodes : ℕ → Bytes) (img : ByteArr) (ino : ℕ) : Prop :=
  ∃ m place, mount (drop img.byte 1024) = some m ∧
    (inodePlace m ino (imageFs m img)).1 = some place ∧
    (readInode m ino (imageFs m img)).1 = some (Inode.decode (inodes ino) 0) ∧
    ∀ ino', 0 < ino' → ino' < p.totalInodes → ino' ≠ ino →
      Disjoint (recordAt (builderOff p ino')) (recordAt place)

theorem mem_groupInodes_div (hm : Made p s₀) (hlt : ino < p.totalInodes) :
    ino ∈ p.groupInodes (ino / p.inodesPerGroup) := by
  rw [mem_groupInodes]
  refine ⟨Nat.div_mul_le_self .., ?_, hlt⟩
  rw [Nat.mul_comm]
  exact Nat.lt_mul_div_succ _ hm.inodesPerGroup_pos

theorem inode_valid (hm : Made p s₀) (h0 : 0 < ino) (hlt : ino < p.totalInodes) :
    Piece.Valid p (.inode (ino / p.inodesPerGroup) ino) := by
  refine ⟨?_, mem_groupInodes_div hm hlt, by omega⟩
  rw [Nat.div_lt_iff_lt_mul hm.inodesPerGroup_pos]
  exact hlt

theorem div_of_mem_groupInodes {g : ℕ} (h : ino ∈ p.groupInodes g) :
    ino / p.inodesPerGroup = g := by
  rw [mem_groupInodes] at h
  exact Nat.div_eq_of_lt_le h.1 h.2.1

theorem builderOff_of_not_dvd (hm : Made p s₀) (hdvd : ¬ p.inodesPerGroup ∣ ino) :
    builderOff p ino = driverOff p ino := by
  have hpos := hm.inodesPerGroup_pos
  have hr0 : ino % p.inodesPerGroup ≠ 0 := mt Nat.dvd_of_mod_eq_zero hdvd
  have hr := Nat.mod_lt ino hpos
  have hsplit := Nat.div_add_mod' ino p.inodesPerGroup
  have hlocal : p.localIno ino = ino % p.inodesPerGroup - 1 := by
    have h := localIno_of_lt (p := p) (g := ino / p.inodesPerGroup) hr
    rwa [hsplit, if_neg hr0] at h
  have hpred : ino - 1 = ino / p.inodesPerGroup * p.inodesPerGroup +
      (ino % p.inodesPerGroup - 1) := by omega
  have hdiv : (ino - 1) / p.inodesPerGroup = ino / p.inodesPerGroup := by
    refine Nat.div_eq_of_lt_le (by omega) ?_
    rw [Nat.succ_mul]
    omega
  have hmod : (ino - 1) % p.inodesPerGroup = ino % p.inodesPerGroup - 1 := by
    rw [hpred, Nat.mul_add_mod', Nat.mod_eq_of_lt (by omega)]
  simp only [builderOff, driverOff, Piece.off, hlocal, hdiv, hmod]

theorem driverOff_lt_of_dvd (hm : Made p s₀) (hf : LayoutFits p) (h0 : 0 < ino)
    (hlt : ino < p.totalInodes) (hdvd : p.inodesPerGroup ∣ ino) :
    driverOff p ino < builderOff p ino := by
  have hpos := hm.inodesPerGroup_pos
  obtain ⟨g, rfl⟩ := hdvd
  obtain ⟨g, rfl⟩ : ∃ g', g = g' + 1 := by
    refine Nat.exists_eq_succ_of_ne_zero ?_
    rintro rfl
    omega
  have hcount : g + 1 < p.groupCount :=
    Nat.lt_of_mul_lt_mul_left (a := p.inodesPerGroup) (by rwa [Nat.mul_comm _ p.groupCount])
  have hlocal : p.localIno (p.inodesPerGroup * (g + 1)) = p.inodesPerGroup - 1 := by
    have h := localIno_of_lt (p := p) (g := g + 1) hpos
    rwa [if_pos rfl, Nat.add_zero, Nat.mul_comm] at h
  have hpred : p.inodesPerGroup * (g + 1) - 1 = p.inodesPerGroup * g + (p.inodesPerGroup - 1) := by
    rw [Nat.mul_succ]
    omega
  have hstop := Nat.mul_le_mul_right p.blockSize (hf.group_stop (show g < g + 1 by omega) hcount)
  have hB := hm.blockSize_pos
  simp only [builderOff, driverOff, Piece.off, hlocal, hpred, Nat.mul_add_mod, Nat.mul_add_div hpos,
    Nat.mul_div_cancel_left _ hpos, Nat.div_eq_of_lt (Nat.sub_lt hpos Nat.one_pos), Nat.add_zero,
    Nat.mod_eq_of_lt (Nat.sub_lt hpos Nat.one_pos)]
  simp only [Params.it, Nat.add_mul] at hstop ⊢
  omega

theorem dvd_places (hB : KnownSize p) (ino : ℕ) :
    128 ∣ builderOff p ino ∧ 128 ∣ driverOff p ino % 2 ^ 32 := by
  have hdvd : 128 ∣ p.blockSize := by
    rcases hB with h | h | h <;> rw [h] <;> decide
  constructor
  · exact Nat.dvd_add (Dvd.dvd.mul_left hdvd _) (Nat.dvd_mul_left ..)
  · rw [Nat.dvd_mod_iff (by decide)]
    exact Nat.dvd_add (Dvd.dvd.mul_left hdvd _) (Nat.dvd_mul_left ..)

theorem not_mem_recordAt {o o' j : ℕ} (h : 128 ∣ o) (h' : 128 ∣ o') (hne : o ≠ o')
    (hj : j ∈ recordAt o) : j ∉ recordAt o' := by
  obtain ⟨a, rfl⟩ := h
  obtain ⟨b, rfl⟩ := h'
  simp only [recordAt, Set.mem_Ico] at hj ⊢
  omega

theorem inodeAgrees_of_eq (hm : Made p s₀) (hf : LayoutFits p) (hfit : FlushFits p s)
    (h0 : 0 < ino) (hlt : ino < p.totalInodes)
    (hplace : driverOff p ino % 2 ^ 32 = builderOff p ino) :
    InodeAgrees p s.inodes (s.flushed p) ino := by
  have hvalid := inode_valid hm h0 hlt
  refine ⟨mountOf p, builderOff p ino, mount_flushed hm hf hfit, ?_, ?_, ?_⟩
  · rw [inodePlace_flushed hm hf hfit hlt, hplace]
  · rw [readInode_flushed hm hf hfit h0 hlt, hplace]
    refine congrArg some (Inode.decode_congr fun k hk => ?_)
    rw [Nat.zero_add]
    exact flushed_piece hm hf hfit.size hvalid hk
  · intro ino' h0' hlt' hne
    rw [Set.disjoint_left]
    intro j hj' hj
    have h := eq_of_covers (s := s) hm hf hfit.size (inode_valid hm h0' hlt') hvalid hj' hj
    exact hne (Piece.inode.inj h).2

theorem flushed_congr_inodes {inodes inodes' : ℕ → Bytes} {j : ℕ}
    (h : ∀ ino, 0 < ino → ino < p.totalInodes → j ∉ recordAt (builderOff p ino)) :
    (Builder.flushed { s with inodes := inodes' } p).byte j =
      (Builder.flushed { s with inodes := inodes } p).byte j := by
  refine applyAll_map_congr _ (fun _ => rfl) (fun _ => rfl) (fun w hw hcov => ?_) rfl
  cases w with
  | inode g ino =>
    obtain ⟨-, hino, h0⟩ := mem_pieces.mp hw
    have hg := div_of_mem_groupInodes hino
    refine absurd hcov (h ino (by omega) (mem_groupInodes.mp hino).2.2 ∘ fun hcov => ?_)
    rwa [builderOff, hg]
  | _ => rfl

theorem not_inodeAgrees_of_ne (hm : Made p s₀) (hf : LayoutFits p) (hfit : FlushFits p s)
    (h0 : 0 < ino) (hlt : ino < p.totalInodes)
    (hplace : driverOff p ino % 2 ^ 32 ≠ builderOff p ino) :
    ∃ inodes, ¬ InodeAgrees p inodes (Builder.flushed { s with inodes := inodes } p) ino := by
  by_contra! hall
  -- Two contents that differ in the mode of the inode.
  let inodes : ℕ → Bytes := fun _ => zero
  let inodes' : ℕ → Bytes := Function.update inodes ino fun _ => 1#8
  have hfits : ∀ f : ℕ → Bytes, FlushFits p { s with inodes := f } := hfit.withInodes
  have hread : ∀ f : ℕ → Bytes, Inode.decode (Builder.flushed { s with inodes := f } p).byte
      (driverOff p ino % 2 ^ 32) = Inode.decode (f ino) 0 := by
    intro f
    obtain ⟨m, place, hmount, -, hread, -⟩ := hall f
    rw [mount_flushed hm hf (hfits f)] at hmount
    cases hmount
    rw [readInode_flushed hm hf (hfits f) h0 hlt] at hread
    exact Option.some.inj hread
  have halone : ∀ ino', 0 < ino' → ino' < p.totalInodes →
      ∀ j ∈ recordAt (driverOff p ino % 2 ^ 32), j ∉ recordAt (builderOff p ino') := by
    intro ino' h0' hlt' j hj
    by_cases hne : ino' = ino
    · subst hne
      have hdvd := dvd_places hfit.size ino'
      exact not_mem_recordAt hdvd.2 hdvd.1 hplace hj
    · obtain ⟨m, place, hmount, hplace', -, hdisjoint⟩ := hall inodes
      rw [mount_flushed hm hf (hfits inodes)] at hmount
      cases hmount
      rw [inodePlace_flushed hm hf (hfits inodes) hlt] at hplace'
      cases hplace'
      exact Set.disjoint_right.mp (hdisjoint ino' h0' hlt' hne) hj
  have hsame : Inode.decode (inodes' ino) 0 = Inode.decode (inodes ino) 0 := by
    rw [← hread inodes, ← hread inodes']
    refine Inode.decode_congr fun k hk => flushed_congr_inodes fun ino' h0' hlt' => ?_
    exact halone ino' h0' hlt' _ ⟨Nat.le_add_right .., Nat.add_lt_add_left hk _⟩
  have hmode := congrArg Inode.mode hsame
  simp only [inodes', Function.update_self] at hmode
  exact absurd hmode (by decide)

theorem len_of_populate {files : List (List Byte × List Byte)} (hm : Made p s₀)
    (h : populate p files s₀ = (some (), s)) : s.img.len = p.totalBlocks * p.blockSize := by
  have hstable : Stable p s₀.blockBitmap s₀ := ⟨congrArg ByteArr.len hm.img, fun _ hb => hb⟩
  exact (populate_keeps files s₀ () s hstable h).1.len

def buildState (p : Params) (files : List (List Byte × List Byte)) :
    Option (Builder × ByteArr) := do
  let s₀ ← Builder.init p
  match populate p files s₀ with
  | (some _, s) => ((flush p s).1).map fun img => (s, img)
  | (none, _) => none

theorem buildState_eq_some {files : List (List Byte × List Byte)}
    (h : buildState p files = some (s, img)) : ∃ s₀ s', Builder.init p = some s₀ ∧
      populate p files s₀ = (some (), s) ∧ flush p s = (some img, s') := by
  obtain ⟨s₀, hinit, hrest⟩ := Option.bind_eq_some_iff.mp h
  rcases hpopulate : populate p files s₀ with ⟨_ | u, s₁⟩
  · rw [hpopulate] at hrest
    cases hrest
  · rw [hpopulate] at hrest
    obtain ⟨img', hflush, heq⟩ := Option.map_eq_some_iff.mp hrest
    cases heq
    exact ⟨s₀, (flush p s).2, hinit, hpopulate, Prod.ext hflush rfl⟩

def twoGroups : Params := ⟨128, 1024, 16, 64⟩

end BananaOS.Mkfs
