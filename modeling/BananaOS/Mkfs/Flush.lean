import BananaOS.Mkfs.Layout
import BananaOS.Mkfs.Run

/-!
# What `flush` writes

`flush` writes the superblock, the descriptor table, and for every group two bitmaps and the inodes
one by one.  A `Piece` is one of these writes, and the image after `flush` is the image before it
with all pieces written (`flush_run`).  Where a piece is depends on the parameters only, and what it
holds on the state.
-/

namespace BananaOS.Mkfs

open Bytes FailState Patch

variable {p : Params} {s s₀ s' : Builder} {img : ByteArr} {used : ℕ → Bool}

/-! ## Pieces -/

inductive Piece where
  | superblock
  | gdt
  | blockBitmap (g : ℕ)
  | inodeBitmap (g : ℕ)
  | inode (g ino : ℕ)

def Piece.off (p : Params) : Piece → ℕ
  | .superblock => 1024
  | .gdt => p.gdtStart * p.blockSize
  | .blockBitmap g => p.bb g * p.blockSize
  | .inodeBitmap g => p.ib g * p.blockSize
  | .inode g ino => p.it g * p.blockSize + p.localIno ino * 128

def Piece.len (p : Params) : Piece → ℕ
  | .superblock => 1024
  | .gdt => max 1024 (p.groupCount * 32)
  | .blockBitmap _ => p.blockSize
  | .inodeBitmap _ => p.blockSize
  | .inode _ _ => 128

def Builder.super (s : Builder) (p : Params) : Bytes :=
  superBytes p (p.totalBlocks - s.usedBlocks p) (p.totalInodes - s.usedInodes p)
    ((logBlock p.blockSize).getD 0)

def Piece.data (p : Params) (s : Builder) : Piece → Bytes
  | .superblock => s.super p
  | .gdt => s.gdtBytes p
  | .blockBitmap g => bitmapOf (s.blockBits p g)
  | .inodeBitmap g => bitmapOf (s.inodeBits p g)
  | .inode _ ino => s.inodes ino

def Piece.patch (p : Params) (s : Builder) (w : Piece) : Patch := ⟨w.off p, w.len p, w.data p s⟩

def tablePieces (g : ℕ) (inos : List ℕ) : List Piece :=
  (inos.filter fun ino => ino ≠ 0).map (.inode g)

def groupPieces (p : Params) (g : ℕ) : List Piece :=
  .blockBitmap g :: .inodeBitmap g :: tablePieces g (p.groupInodes g)

def pieces (p : Params) : List Piece :=
  [.superblock, .gdt] ++ (List.range' 0 p.groupCount).flatMap (groupPieces p)

def Builder.written (s : Builder) (p : Params) (ws : List Piece) : Builder :=
  { s with img := ⟨s.img.len, applyAll (ws.map (Piece.patch p s)) s.img.byte⟩ }

variable {u : Unit} {g n j : ℕ} {w : Piece}

theorem written_append (ws ws' : List Piece) :
    (s.written p ws).written p ws' = s.written p (ws ++ ws') := by
  simp only [Builder.written, List.map_append, applyAll_append]
  rfl

theorem setSlice_piece (w : Piece) (h : w.off p + w.len p ≤ s.img.len) :
    { s with img := s.img.setSlice (w.off p) (w.off p + w.len p) (w.len p) (w.data p s) } =
      s.written p [w] := by
  rw [ByteArr.setSlice_inside h]
  rfl

/-! ## `flush` as a list of pieces -/

theorem pack_run {w v : ℕ} (h : v < 2 ^ w) : pack w v s = (some (), s) := by
  simp only [pack, if_pos h]
  rfl

theorem pack_eq_some {w v : ℕ} (h : pack w v s = (some u, s')) : v < 2 ^ w ∧ s' = s := by
  simp only [pack] at h
  split_ifs at h with hlt
  · cases h
    exact ⟨hlt, rfl⟩
  · cases h

theorem of_pack_bind {α : Type} {w v : ℕ} {f : Unit → FailState Builder α} {a : α}
    (h : (pack w v >>= f) s = (some a, s')) : v < 2 ^ w ∧ f () s = (some a, s') := by
  obtain ⟨_, s₁, hpack, hrest⟩ := of_bind_eq_some h
  obtain ⟨hlt, rfl⟩ := pack_eq_some hpack
  exact ⟨hlt, hrest⟩

theorem bitmapBytes_run {bits : List ℕ} (h : ¬ ∃ i ∈ bits, p.blockSize ≤ i / 8) :
    bitmapBytes p bits s = (some (bitmapOf bits), s) := by
  simp only [bitmapBytes, if_neg h]
  rfl

theorem bitmapBytes_eq_some {bits : List ℕ} {buf : Bytes}
    (h : bitmapBytes p bits s = (some buf, s')) :
    (¬ ∃ i ∈ bits, p.blockSize ≤ i / 8) ∧ buf = bitmapOf bits ∧ s' = s := by
  simp only [bitmapBytes] at h
  split_ifs at h with hbad
  · cases h
  · cases h
    exact ⟨hbad, rfl, rfl⟩

structure SuperFits (p : Params) : Prop where
  totalInodes : p.totalInodes < 2 ^ 32
  totalBlocks : p.totalBlocks < 2 ^ 32
  blocksPerGroup : p.blocksPerGroup < 2 ^ 32
  inodesPerGroup : p.inodesPerGroup < 2 ^ 32

theorem packSuper_run (h : SuperFits p) : packSuper p s = (some (), s) := by
  simp only [packSuper]
  rw [bind_of_some (pack_run h.totalInodes), bind_of_some (pack_run h.totalBlocks),
    bind_of_some (pack_run h.blocksPerGroup), pack_run h.inodesPerGroup]

theorem packSuper_eq_some (h : packSuper p s = (some u, s')) : SuperFits p ∧ s' = s := by
  obtain ⟨hino, h⟩ := of_pack_bind h
  obtain ⟨hblk, h⟩ := of_pack_bind h
  obtain ⟨hbpg, h⟩ := of_pack_bind h
  obtain ⟨hipg, rfl⟩ := pack_eq_some h
  exact ⟨⟨hino, hblk, hbpg, hipg⟩, rfl⟩

structure GdescFits (p : Params) (s : Builder) (g : ℕ) : Prop where
  bb : p.bb g < 2 ^ 32
  ib : p.ib g < 2 ^ 32
  it : p.it g < 2 ^ 32
  freeBlocks : s.groupFreeBlocks p g < 2 ^ 16
  freeInodes : s.groupFreeInodes p g < 2 ^ 16
  dirs : s.groupDirs p g < 2 ^ 16

theorem packGdesc_run (h : GdescFits p s g) : packGdesc p g s = (some (), s) := by
  simp only [packGdesc]
  rw [bind_of_some (pack_run h.bb), bind_of_some (pack_run h.ib), bind_of_some (pack_run h.it),
    gets_bind_run, bind_of_some (pack_run h.freeBlocks), gets_bind_run,
    bind_of_some (pack_run h.freeInodes), gets_bind_run, pack_run h.dirs]

theorem packGdesc_eq_some (h : packGdesc p g s = (some u, s')) : GdescFits p s g ∧ s' = s := by
  obtain ⟨hbb, h⟩ := of_pack_bind h
  obtain ⟨hib, h⟩ := of_pack_bind h
  obtain ⟨hit, h⟩ := of_pack_bind h
  rw [gets_bind_run] at h
  obtain ⟨hfb, h⟩ := of_pack_bind h
  rw [gets_bind_run] at h
  obtain ⟨hfi, h⟩ := of_pack_bind h
  rw [gets_bind_run] at h
  obtain ⟨hdirs, rfl⟩ := pack_eq_some h
  exact ⟨⟨hbb, hib, hit, hfb, hfi, hdirs⟩, rfl⟩

theorem packGdescs_run (h : ∀ g' ∈ List.range' g n, GdescFits p s g') :
    packGdescs p n g s = (some (), s) := by
  induction n generalizing g with
  | zero => rfl
  | succ n ih =>
    rw [List.range'_succ, List.forall_mem_cons] at h
    simp only [packGdescs]
    rw [bind_of_some (packGdesc_run h.1), ih h.2]

theorem packGdescs_eq_some (h : packGdescs p n g s = (some u, s')) :
    (∀ g' ∈ List.range' g n, GdescFits p s g') ∧ s' = s := by
  induction n generalizing g with
  | zero =>
    cases h
    exact ⟨List.forall_mem_nil _, rfl⟩
  | succ n ih =>
    obtain ⟨_, s₁, h₁, h₂⟩ := of_bind_eq_some h
    obtain ⟨hfit, rfl⟩ := packGdesc_eq_some h₁
    obtain ⟨hfits, rfl⟩ := ih h₂
    rw [List.range'_succ, List.forall_mem_cons]
    exact ⟨⟨hfit, hfits⟩, rfl⟩

def BitsFit (p : Params) (s : Builder) (g : ℕ) : Prop :=
  (¬ ∃ i ∈ s.blockBits p g, p.blockSize ≤ i / 8) ∧ ¬ ∃ i ∈ s.inodeBits p g, p.blockSize ≤ i / 8

theorem writeInodeTable_run (inos : List ℕ)
    (h : ∀ w ∈ tablePieces g inos, w.off p + w.len p ≤ s.img.len) :
    writeInodeTable p g inos s = (some (), s.written p (tablePieces g inos)) := by
  induction inos generalizing s with
  | nil => rfl
  | cons ino inos ih =>
    simp only [writeInodeTable]
    by_cases h0 : ino = 0
    · have hskip : tablePieces g (ino :: inos) = tablePieces g inos := by
        simp only [tablePieces, List.filter_cons, h0, ne_eq, not_true_eq_false, decide_false,
          Bool.false_eq_true, if_false]
      rw [hskip] at h ⊢
      rw [if_neg (not_not.mpr h0)]
      exact ih h
    · have hput : tablePieces g (ino :: inos) = [.inode g ino] ++ tablePieces g inos := by
        simp only [tablePieces, List.filter_cons, h0, ne_eq, not_false_eq_true, decide_true,
          if_true, List.map_cons, List.singleton_append]
      rw [hput, List.forall_mem_append, List.forall_mem_singleton] at h
      rw [if_pos h0, hput, ← written_append]
      exact (congrArg _ (setSlice_piece (.inode g ino) h.1)).trans (ih h.2)

theorem writeBlockBitmap_run (h : Piece.off p (.blockBitmap g) + p.blockSize ≤ s.img.len) :
    writeBlockAt p (p.bb g) (bitmapOf (s.blockBits p g)) s =
      (some (), s.written p [.blockBitmap g]) := by
  rw [← setSlice_piece (.blockBitmap g) h, writeBlockAt, Nat.succ_mul]
  rfl

theorem writeInodeBitmap_run (h : Piece.off p (.inodeBitmap g) + p.blockSize ≤ s.img.len) :
    writeBlockAt p (p.ib g) (bitmapOf (s.inodeBits p g)) s =
      (some (), s.written p [.inodeBitmap g]) := by
  rw [← setSlice_piece (.inodeBitmap g) h, writeBlockAt, Nat.succ_mul]
  rfl

def GroupInside (p : Params) (len g : ℕ) : Prop := ∀ w ∈ groupPieces p g, w.off p + w.len p ≤ len

theorem writeGroups_succ (hin : GroupInside p s.img.len g) (hbits : BitsFit p s g) :
    writeGroups p (n + 1) g s = writeGroups p n (g + 1) (s.written p (groupPieces p g)) := by
  simp only [GroupInside, groupPieces, List.forall_mem_cons] at hin
  obtain ⟨hbb, hib, htable⟩ := hin
  have hsplit : groupPieces p g =
      [.blockBitmap g] ++ ([.inodeBitmap g] ++ tablePieces g (p.groupInodes g)) := rfl
  -- The bitmaps do not depend on the image.
  have hbits' : BitsFit p (s.written p [.blockBitmap g]) g := hbits
  rw [hsplit, ← written_append, ← written_append]
  simp only [writeGroups]
  rw [gets_bind_run, bind_of_some (bitmapBytes_run hbits.1),
    bind_of_some (writeBlockBitmap_run hbb), gets_bind_run,
    bind_of_some (bitmapBytes_run hbits'.2),
    bind_of_some (writeInodeBitmap_run (s := s.written p [.blockBitmap g]) hib)]
  exact bind_of_some (writeInodeTable_run _ htable)

theorem bitsFit_of_writeGroups (hin : GroupInside p s.img.len g)
    (h : writeGroups p (n + 1) g s = (some u, s')) : BitsFit p s g := by
  simp only [GroupInside, groupPieces, List.forall_mem_cons] at hin
  simp only [writeGroups] at h
  rw [gets_bind_run] at h
  obtain ⟨bbuf, s₁, hbbuf, h₁⟩ := of_bind_eq_some h
  obtain ⟨hbits, rfl, rfl⟩ := bitmapBytes_eq_some hbbuf
  rw [bind_of_some (writeBlockBitmap_run hin.1), gets_bind_run] at h₁
  obtain ⟨ibuf, s₂, hibuf, h₂⟩ := of_bind_eq_some h₁
  exact ⟨hbits, (bitmapBytes_eq_some hibuf).1⟩

theorem writeGroups_run (hbits : ∀ g' ∈ List.range' g n, BitsFit p s g')
    (hin : ∀ g' ∈ List.range' g n, GroupInside p s.img.len g') :
    writeGroups p n g s =
      (some (), s.written p ((List.range' g n).flatMap (groupPieces p))) := by
  induction n generalizing g s with
  | zero => rfl
  | succ n ih =>
    rw [List.range'_succ, List.forall_mem_cons] at hbits hin
    rw [List.range'_succ, List.flatMap_cons, ← written_append, writeGroups_succ hin.1 hbits.1]
    exact ih hbits.2 hin.2

theorem bitsFit_of_writeGroups_eq_some (hin : ∀ g' ∈ List.range' g n, GroupInside p s.img.len g')
    (h : writeGroups p n g s = (some u, s')) : ∀ g' ∈ List.range' g n, BitsFit p s g' := by
  induction n generalizing g s with
  | zero => exact List.forall_mem_nil _
  | succ n ih =>
    rw [List.range'_succ, List.forall_mem_cons] at hin
    have hbits := bitsFit_of_writeGroups hin.1 h
    rw [writeGroups_succ hin.1 hbits] at h
    rw [List.range'_succ, List.forall_mem_cons]
    exact ⟨hbits, ih (s := s.written p (groupPieces p g)) hin.2 h⟩

structure FlushFits (p : Params) (s : Builder) : Prop where
  size : KnownSize p
  super : SuperFits p
  gdesc : ∀ g ∈ List.range' 0 p.groupCount, GdescFits p s g
  bits : ∀ g ∈ List.range' 0 p.groupCount, BitsFit p s g

theorem knownSize_of_logBlock {log : ℕ} (h : logBlock p.blockSize = some log) : KnownSize p := by
  simp only [logBlock] at h
  split_ifs at h with h1 h2 h3
  · exact .inl h1
  · exact .inr (.inl h2)
  · exact .inr (.inr h3)

theorem knownSize_of_flush (h : flush p s = (some img, s')) : KnownSize p := by
  simp only [flush] at h
  rcases hlog : logBlock p.blockSize with _ | log
  · simp only [hlog] at h
    cases h
  · exact knownSize_of_logBlock hlog

theorem KnownSize.logBlock (h : KnownSize p) :
    logBlock p.blockSize = some ((logBlock p.blockSize).getD 0) := by
  rcases h with h | h | h <;> rw [h] <;> rfl

theorem GdescFits.written (h : GdescFits p s g) (ws : List Piece) :
    GdescFits p (s.written p ws) g :=
  ⟨h.bb, h.ib, h.it, h.freeBlocks, h.freeInodes, h.dirs⟩

structure PiecesInside (p : Params) (len : ℕ) : Prop where
  superblock : 2048 ≤ len
  gdt : Piece.off p .gdt + Piece.len p .gdt ≤ len
  group : ∀ g ∈ List.range' 0 p.groupCount, GroupInside p len g

theorem flush_head {log : ℕ} (hlog : logBlock p.blockSize = some log) (hsuper : SuperFits p)
    (hgdesc : ∀ g ∈ List.range' 0 p.groupCount, GdescFits p s g)
    (hin : PiecesInside p s.img.len) :
    flush p s = (writeGroups p p.groupCount 0 >>= fun _ => gets Builder.img)
      (s.written p ([.superblock] ++ [.gdt])) := by
  have hgdesc' : ∀ g ∈ List.range' 0 p.groupCount, GdescFits p (s.written p [.superblock]) g :=
    fun g hg => (hgdesc g hg).written _
  have hfirst := setSlice_piece (p := p) .superblock hin.superblock
  have hsecond := setSlice_piece (s := s.written p [.superblock]) .gdt hin.gdt
  simp only [Piece.off, Piece.len, Piece.data, Builder.super, hlog, Option.getD_some]
    at hfirst hsecond
  simp only [flush, hlog]
  rw [bind_of_some (packSuper_run hsuper), modify_bind_run, hfirst,
    bind_of_some (packGdescs_run hgdesc'), modify_bind_run, hsecond, written_append]

theorem FlushFits.withInodes (h : FlushFits p s) (inodes : ℕ → Bytes) :
    FlushFits p { s with inodes := inodes } :=
  ⟨h.size, h.super, fun g hg =>
    have hg := h.gdesc g hg
    ⟨hg.bb, hg.ib, hg.it, hg.freeBlocks, hg.freeInodes, hg.dirs⟩, h.bits⟩

theorem flush_run (h : FlushFits p s) (hin : PiecesInside p s.img.len) :
    flush p s = (some (s.written p (pieces p)).img, s.written p (pieces p)) := by
  rw [flush_head h.size.logBlock h.super h.gdesc hin,
    bind_of_some (writeGroups_run (s := s.written p _) h.bits hin.group), written_append]
  rfl

theorem flushFits_of_eq_some (hin : PiecesInside p s.img.len)
    (h : flush p s = (some img, s')) : FlushFits p s := by
  have hrun := h
  simp only [flush] at h
  rcases hlog : logBlock p.blockSize with _ | log
  · simp only [hlog] at h
    cases h
  · simp only [hlog] at h
    obtain ⟨_, s₁, h₁, hrest₁⟩ := of_bind_eq_some h
    obtain ⟨hsuper, rfl⟩ := packSuper_eq_some h₁
    rw [modify_bind_run] at hrest₁
    obtain ⟨_, s₂, h₂, hrest₂⟩ := of_bind_eq_some hrest₁
    have hgdesc : ∀ g ∈ List.range' 0 p.groupCount, GdescFits p s₁ g := fun g hg =>
      have hfit := (packGdescs_eq_some h₂).1 g hg
      ⟨hfit.bb, hfit.ib, hfit.it, hfit.freeBlocks, hfit.freeInodes, hfit.dirs⟩
    rw [flush_head hlog hsuper hgdesc hin] at hrun
    obtain ⟨_, s₃, h₃, -⟩ := of_bind_eq_some hrun
    exact ⟨knownSize_of_logBlock hlog, hsuper, hgdesc,
      bitsFit_of_writeGroups_eq_some (s := s₁.written p _) hin.group h₃⟩

/-! ## Places of pieces -/

theorem mem_groupInodes {ino : ℕ} : ino ∈ p.groupInodes g ↔
    g * p.inodesPerGroup ≤ ino ∧ ino < (g + 1) * p.inodesPerGroup ∧ ino < p.totalInodes := by
  rw [Params.groupInodes, List.mem_range'_1]
  omega

def Piece.Valid (p : Params) : Piece → Prop
  | .superblock => True
  | .gdt => True
  | .blockBitmap g => g < p.groupCount
  | .inodeBitmap g => g < p.groupCount
  | .inode g ino => g < p.groupCount ∧ ino ∈ p.groupInodes g ∧ ino ≠ 0

theorem mem_groupPieces : w ∈ groupPieces p g ↔ w = .blockBitmap g ∨ w = .inodeBitmap g ∨
      ∃ ino, (ino ∈ p.groupInodes g ∧ ino ≠ 0) ∧ .inode g ino = w := by
  simp only [groupPieces, tablePieces, List.mem_cons, List.mem_map, List.mem_filter,
    decide_eq_true_eq]

theorem mem_pieces : w ∈ pieces p ↔ w.Valid p := by
  have hrange : ∀ g, g ∈ List.range' 0 p.groupCount ↔ g < p.groupCount := fun g => by
    rw [List.mem_range'_1]
    omega
  rw [pieces, List.mem_append, List.mem_flatMap]
  constructor
  · rintro (hhead | ⟨g, hg, hw⟩)
    · rcases List.mem_pair.mp hhead with rfl | rfl <;> trivial
    · rw [hrange] at hg
      rcases mem_groupPieces.mp hw with rfl | rfl | ⟨ino, hino, rfl⟩
      · exact hg
      · exact hg
      · exact ⟨hg, hino⟩
  · intro h
    cases w with
    | superblock => exact .inl (List.mem_pair.mpr (.inl rfl))
    | gdt => exact .inl (List.mem_pair.mpr (.inr rfl))
    | blockBitmap g => exact .inr ⟨g, (hrange g).mpr h, mem_groupPieces.mpr (.inl rfl)⟩
    | inodeBitmap g => exact .inr ⟨g, (hrange g).mpr h, mem_groupPieces.mpr (.inr (.inl rfl))⟩
    | inode g ino =>
      exact .inr ⟨g, (hrange g).mpr h.1, mem_groupPieces.mpr (.inr (.inr ⟨ino, h.2, rfl⟩))⟩

def Piece.region : Piece → Region
  | .superblock => .superblock
  | .gdt => .gdt
  | .blockBitmap g => .group g .blockBitmap
  | .inodeBitmap g => .group g .inodeBitmap
  | .inode g _ => .group g .inodeTable

theorem Piece.Valid.region (h : w.Valid p) : w.region.Valid p := by
  cases w with
  | superblock => trivial
  | gdt => trivial
  | blockBitmap g => exact h
  | inodeBitmap g => exact h
  | inode g ino => exact h.1

theorem localIno_lt (h : 0 < p.inodesPerGroup) (ino : ℕ) : p.localIno ino < p.inodesPerGroup :=
  Nat.mod_lt _ h

theorem Piece.mem_region (hm : Made p s₀) (hne : w ≠ .gdt)
    (hcov : (w.patch p s).Covers j) : j ∈ w.region.bytes p := by
  obtain ⟨hlo, hhi⟩ := hcov
  rw [Region.mem_bytes]
  cases w with
  | superblock => exact ⟨hlo, hhi⟩
  | gdt => exact absurd rfl hne
  | blockBitmap g => exact ⟨hlo, hhi⟩
  | inodeBitmap g => exact ⟨hlo, hhi⟩
  | inode g ino =>
    have hlocal := localIno_lt hm.inodesPerGroup_pos ino
    simp only [Piece.patch, Piece.off, Piece.len, Piece.region, Region.start, Region.len,
      Part.offset, Part.len, Params.it] at hlo hhi ⊢
    omega

theorem gdt_covers (hB : KnownSize p)
    (hgdt : p.groupCount * 32 ≤ if p.blockSize = 2048 then 2048 else 1024)
    (hcov : (Piece.patch p s .gdt).Covers j) :
    p.gdtStart * p.blockSize ≤ j ∧ j < (p.gdtStart + 1) * p.blockSize ∧
      j ∉ Region.superblock.bytes p := by
  obtain ⟨hlo, hhi⟩ := hcov
  rw [Region.mem_bytes]
  simp only [Piece.patch, Piece.off, Piece.len, Region.start, Region.len, Params.gdtStart]
    at hlo hhi ⊢
  rcases hB with hB | hB | hB <;> simp only [hB, reduceIte, Nat.reduceEqDiff] at hgdt hlo hhi ⊢ <;>
    omega

theorem region_eq_of_covers (hm : Made p s₀) (hf : LayoutFits p) (hB : KnownSize p) {w' : Piece}
    (hw : w.Valid p) (hw' : w'.Valid p) (hcov : (w.patch p s).Covers j)
    (hcov' : (w'.patch p s).Covers j) : w.region = w'.region := by
  -- The descriptor table meets no other region.
  have hgdt : ∀ {v : Piece}, v.Valid p → v ≠ .gdt → (v.patch p s).Covers j →
      ¬ (Piece.patch p s .gdt).Covers j := by
    intro v hv hne hcov hcov'
    obtain ⟨hlo, hhi, hnot⟩ := gdt_covers hB hf.gdt_fits hcov'
    have hmem := Piece.mem_region hm hne hcov
    have hgroup : ∀ {g : ℕ} {part : Part}, g < p.groupCount →
        j ∈ Region.bytes p (.group g part) → False := by
      intro g part hg hj
      have hbb := Nat.mul_le_mul_right p.blockSize (hf.gdtStart_lt_bb hg)
      have := (hf.group_within hj).1
      omega
    cases v with
    | superblock => exact hnot hmem
    | gdt => exact hne rfl
    | blockBitmap g => exact hgroup hv hmem
    | inodeBitmap g => exact hgroup hv hmem
    | inode g ino => exact hgroup hv.1 hmem
  by_cases hg : w = .gdt
  · by_cases hg' : w' = .gdt
    · rw [hg, hg']
    · exact absurd (hg ▸ hcov) (hgdt hw' hg' hcov')
  · by_cases hg' : w' = .gdt
    · exact absurd (hg' ▸ hcov') (hgdt hw hg hcov)
    · exact hf.eq_of_mem hB (Piece.mem_region hm hg hcov) (Piece.mem_region hm hg' hcov')
        hw.region hw'.region

theorem localIno_of_lt {r : ℕ} (hr : r < p.inodesPerGroup) :
    p.localIno (g * p.inodesPerGroup + r) = if r = 0 then p.inodesPerGroup - 1 else r - 1 := by
  simp only [Params.localIno]
  split_ifs with h0
  · rw [h0, Nat.add_zero, Nat.add_sub_assoc (by omega), Nat.mul_add_mod',
      Nat.mod_eq_of_lt (by omega)]
  · have hsplit : g * p.inodesPerGroup + r + p.inodesPerGroup - 1 =
        (g + 1) * p.inodesPerGroup + (r - 1) := by
      rw [Nat.succ_mul]
      omega
    rw [hsplit, Nat.mul_add_mod', Nat.mod_eq_of_lt (by omega)]

theorem eq_of_localIno {ino ino' : ℕ} (hino : ino ∈ p.groupInodes g)
    (hino' : ino' ∈ p.groupInodes g) (h : p.localIno ino = p.localIno ino') : ino = ino' := by
  rw [mem_groupInodes, Nat.succ_mul] at hino hino'
  obtain ⟨r, rfl⟩ := Nat.exists_eq_add_of_le hino.1
  obtain ⟨r', rfl⟩ := Nat.exists_eq_add_of_le hino'.1
  rw [localIno_of_lt (by omega), localIno_of_lt (by omega)] at h
  split_ifs at h <;> omega

theorem eq_of_covers (hm : Made p s₀) (hf : LayoutFits p) (hB : KnownSize p) {w' : Piece}
    (hw : w.Valid p) (hw' : w'.Valid p) (hcov : (w.patch p s).Covers j)
    (hcov' : (w'.patch p s).Covers j) : w = w' := by
  have hregion := region_eq_of_covers hm hf hB hw hw' hcov hcov'
  cases w <;> cases w' <;> cases hregion <;> try rfl
  rename_i g ino ino'
  -- Two inodes of one table: the byte determines the index.
  obtain ⟨hlo, hhi⟩ := hcov
  obtain ⟨hlo', hhi'⟩ := hcov'
  simp only [Piece.patch, Piece.off, Piece.len] at hlo hhi hlo' hhi'
  have hlocal : p.localIno ino = p.localIno ino' := by omega
  rw [eq_of_localIno hw.2.1 hw'.2.1 hlocal]

theorem piecesInside (hm : Made p s₀) (hr : LayoutRight p used) (hB : KnownSize p) :
    PiecesInside p (p.totalBlocks * p.blockSize) := by
  have hhead := hm.head_inside
  have hone := one_le_gdtBlocks p
  have hblock := Nat.mul_le_mul_right p.blockSize (show p.gdtStart + 1 ≤ p.totalBlocks by omega)
  -- The last byte of a piece is in the image, so the piece is.
  have hlast : ∀ {w : Piece}, w.Valid p → w ≠ .gdt → 0 < w.len p →
      w.off p + w.len p ≤ p.totalBlocks * p.blockSize := by
    intro w hw hne hpos
    have hcov : (w.patch p s₀).Covers (w.off p + (w.len p - 1)) := by
      simp only [Patch.Covers, Piece.patch]
      omega
    have hlt := Set.mem_Iio.mp (hr.inside _ hw.region (Piece.mem_region hm hne hcov))
    omega
  refine ⟨hlast (w := .superblock) trivial (by simp) (by decide : 0 < 1024), ?_,
    fun g hg w hw => ?_⟩
  · have hcov : (Piece.patch p s₀ .gdt).Covers (Piece.off p .gdt + (Piece.len p .gdt - 1)) := by
      simp only [Patch.Covers, Piece.patch, Piece.len]
      omega
    have hlt := (gdt_covers hB (hr.gdt_fits hm hB) hcov).2.1
    omega
  · have hg' : g < p.groupCount := by
      have := List.mem_range'_1.mp hg
      omega
    rcases mem_groupPieces.mp hw with rfl | rfl | ⟨ino, hino, rfl⟩
    · exact hlast (w := .blockBitmap g) hg' (by simp) hm.blockSize_pos
    · exact hlast (w := .inodeBitmap g) hg' (by simp) hm.blockSize_pos
    · exact hlast (w := .inode g ino) ⟨hg', hino⟩ (by simp) (by decide : 0 < 128)

/-! ## Reading the image -/

def Builder.flushed (s : Builder) (p : Params) : ByteArr := (s.written p (pieces p)).img

theorem flushed_piece (hm : Made p s₀) (hf : LayoutFits p) (hB : KnownSize p)
    (hw : w.Valid p) {k : ℕ} (hk : k < w.len p) :
    (s.flushed p).byte (w.off p + k) = w.data p s k := by
  have hcov : (w.patch p s).Covers (w.off p + k) := ⟨Nat.le_add_right .., Nat.add_lt_add_left hk _⟩
  refine applyAll_of_agree (List.mem_map_of_mem (mem_pieces.mpr hw)) hcov ?_
  intro w' hw' hcov'
  obtain ⟨v, hv, rfl⟩ := List.mem_map.mp hw'
  obtain rfl := eq_of_covers hm hf hB (mem_pieces.mp hv) hw hcov' hcov
  exact congrArg (v.data p s) (Nat.add_sub_cancel_left ..)

theorem flushed_out (h : ∀ w : Piece, w.Valid p → ¬ (w.patch p s).Covers j) :
    (s.flushed p).byte j = s.img.byte j := by
  refine applyAll_out fun w' hw' => ?_
  obtain ⟨v, hv, rfl⟩ := List.mem_map.mp hw'
  exact h v (mem_pieces.mp hv)

theorem LayoutRight.marked_of_covers (hr : LayoutRight p used) (hm : Made p s₀) (hB : KnownSize p)
    (hused : ∀ b, s₀.blockBitmap b = true → used b = true) (hw : w.Valid p) {b k : ℕ}
    (hk : k < p.blockSize) (hcov : (w.patch p s).Covers (b * p.blockSize + k)) :
    used b = true := by
  have hhi : b * p.blockSize + k < (b + 1) * p.blockSize := by
    rw [Nat.succ_mul]
    omega
  by_cases hgdt : w = .gdt
  · subst hgdt
    obtain ⟨hlo, hlt, -⟩ := gdt_covers hB (hr.gdt_fits hm hB) hcov
    have hle : p.gdtStart ≤ b := Nat.lt_succ_iff.mp (Nat.lt_of_mul_lt_mul_right (hlo.trans_lt hhi))
    have hge : b < p.gdtStart + 1 :=
      Nat.lt_of_mul_lt_mul_right ((Nat.le_add_right ..).trans_lt hlt)
    have hone := one_le_gdtBlocks p
    have hsb := sbBlock_le_gdtStart p
    exact hused b ((hm.marked b).mpr (.inr (.inl ⟨by omega, by omega⟩)))
  · exact hr.marked _ hw.region b
      ⟨_, ⟨Nat.le_add_right .., hhi⟩, Piece.mem_region hm hgdt hcov⟩

theorem flushed_data (hr : LayoutRight p used) (hm : Made p s₀) (hB : KnownSize p)
    (hused : ∀ b, s₀.blockBitmap b = true → used b = true) {b k : ℕ} (hb : used b = false)
    (hk : k < p.blockSize) :
    (s.flushed p).byte (b * p.blockSize + k) = s.img.byte (b * p.blockSize + k) := by
  refine flushed_out fun w hw hcov => ?_
  rw [hr.marked_of_covers hm hB hused hw hk hcov] at hb
  cases hb

end BananaOS.Mkfs
