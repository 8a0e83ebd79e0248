import BananaOS.Ext2.File
import BananaOS.Mkfs.Agreement

/-!
# Builder and driver on block pointers

`write_inode` cuts the list of a file's blocks into twelve direct pointers, a table of `per`
pointers and up to `per` tables behind another one.  `ext2_data_block` finds a pointer again by
subtraction and division.
-/

namespace BananaOS.Mkfs

open Bytes FailState Ext2

variable {p : Params} {used : ℕ → Bool} {s s₀ s' s'' : Builder} {img : ByteArr}

/-! ## Tables -/

structure IsTable (p : Params) (s : Builder) (b : ℕ) (entries : List ℕ) : Prop where
  inUse : s.blockBitmap b = true
  bytes : ∀ k < p.blockSize, s.img.byte (b * p.blockSize + k) = tableOf entries k

structure TableFits (p : Params) (entries : List ℕ) : Prop where
  length : entries.length * 4 ≤ p.blockSize
  entry : ∀ b ∈ entries, b < 2 ^ 32

variable {b : ℕ} {entries blocks : List ℕ}

theorem IsTable.kept (h : IsTable p s b entries)
    (hk : Kept p s.blockBitmap s s') : IsTable p s' b entries :=
  ⟨hk.inUse b h.inUse, fun k hlt => (hk.bytes b h.inUse k hlt).trans (h.bytes k hlt)⟩

theorem Keeps.kept {α : Type} {x : MkfsM α} {Q : α → Prop} {a : α}
    (hx : Keeps p s.blockBitmap x Q) (hs : Stable p used s) (hrun : x s = (some a, s')) :
    Kept p s.blockBitmap s s' :=
  (hx s a s' ⟨hs.len, fun _ hb => hb⟩ hrun).1

theorem allocIndirect_eq_some (hs : Stable p used s)
    (h : allocIndirect p entries s = (some b, s')) :
    TableFits p entries ∧ Spare p used b ∧ IsTable p s' b entries := by
  have hspare := (allocIndirect_keeps entries s b s' hs h).2
  simp only [allocIndirect] at h
  split_ifs at h with hbad
  · cases h
  obtain ⟨b', s₁, halloc, hwrite⟩ := of_bind_eq_some h
  obtain ⟨hlt, -, rfl⟩ := allocBlock_eq_some halloc
  cases hwrite
  have hin : b * p.blockSize + p.blockSize ≤ s.img.len := by
    rw [hs.len]
    exact block_inside hlt le_rfl
  simp only [not_or, not_lt, not_exists, not_and, not_le] at hbad
  refine ⟨⟨hbad.1, hbad.2⟩, hspare, Function.update_self .., fun k hk => ?_⟩
  simp only [Nat.succ_mul, ByteArr.setSlice_inside hin]
  rw [copyIn_in (Nat.le_add_right ..) (by omega), Nat.add_sub_cancel_left]

theorem allocIndirects_eq_some {groups : List (List ℕ)} {bs : List ℕ} (hs : Stable p used s)
    (h : allocIndirects p groups s = (some bs, s')) :
    List.Forall₂ (fun b entries => TableFits p entries ∧ Spare p used b ∧ IsTable p s' b entries)
      bs groups := by
  induction groups generalizing s bs with
  | nil =>
    cases h
    exact .nil
  | cons g gs ih =>
    obtain ⟨b, s₁, hfirst, hrest⟩ := of_bind_eq_some h
    obtain ⟨bs', s₂, hmore, hdone⟩ := of_bind_eq_some hrest
    cases hdone
    have hs₁ := (allocIndirect_keeps g s b s₁ hs hfirst).1.toStable
    obtain ⟨hfit, hspare, htable⟩ := allocIndirect_eq_some hs hfirst
    -- The first table is left alone while the others are written.
    have hkept := (allocIndirects_keeps gs).kept hs₁ hmore
    exact .cons ⟨hfit, hspare, htable.kept hkept⟩ (ih hs₁ hmore)

/-- The tables behind `i_block[12]` and `i_block[13]`. -/
structure Tables (p : Params) (used : ℕ → Bool) (s : Builder) (blocks : List ℕ) (i1 i2 : ℕ) :
    Prop where
  no_single : blocks.length ≤ 12 → i1 = 0
  single : 12 < blocks.length → TableFits p ((blocks.drop 12).take (p.blockSize / 4)) ∧
    Spare p used i1 ∧ IsTable p s i1 ((blocks.drop 12).take (p.blockSize / 4))
  no_double : blocks.length ≤ 12 + p.blockSize / 4 → i2 = 0
  double : 12 + p.blockSize / 4 < blocks.length → ∃ l2, TableFits p l2 ∧ Spare p used i2 ∧
    IsTable p s i2 l2 ∧ List.Forall₂
      (fun b entries => TableFits p entries ∧ Spare p used b ∧ IsTable p s b entries) l2
      (chunks (p.blockSize / 4) (blocks.drop (12 + p.blockSize / 4)))

theorem allocTables_eq_some {i1 i2 extra : ℕ} (hs : Stable p used s)
    (h : allocTables p blocks s = (some (i1, i2, extra), s')) : Tables p used s' blocks i1 i2 := by
  simp only [allocTables] at h
  split_ifs at h with hdirect hsingle
  · cases h
    exact ⟨fun _ => rfl, fun hlt => by omega, fun _ => rfl, fun hlt => by omega⟩
  · obtain ⟨b, s₁, hfirst, hrest⟩ := of_bind_eq_some h
    obtain ⟨-, hdone⟩ := of_pack_bind hrest
    cases hdone
    exact ⟨fun hle => by omega, fun _ => allocIndirect_eq_some hs hfirst, fun _ => rfl,
      fun hlt => by omega⟩
  · obtain ⟨b, s₁, hfirst, hrest₁⟩ := of_bind_eq_some h
    obtain ⟨-, hrest₂⟩ := of_pack_bind hrest₁
    obtain ⟨l2, s₃, hmore, hrest₃⟩ := of_bind_eq_some hrest₂
    obtain ⟨b', s₄, hlast, hrest₄⟩ := of_bind_eq_some hrest₃
    obtain ⟨-, hdone⟩ := of_pack_bind hrest₄
    cases hdone
    obtain ⟨hfit, hspare, htable⟩ := allocIndirect_eq_some hs hfirst
    have hs₂ := (allocIndirect_keeps _ s _ _ hs hfirst).1.toStable
    have hs₃ := (allocIndirects_keeps _ _ _ _ hs₂ hmore).1.toStable
    have hkept₃ := (allocIndirects_keeps _).kept hs₂ hmore
    have hkept₅ := (allocIndirect_keeps _).kept hs₃ hlast
    obtain ⟨hfit', hspare', htable'⟩ := allocIndirect_eq_some hs₃ hlast
    refine ⟨fun hle => by omega, fun _ => ⟨hfit, hspare, (htable.kept hkept₃).kept hkept₅⟩,
      fun hle => by omega, fun _ => ⟨l2, hfit', hspare', htable', ?_⟩⟩
    refine (allocIndirects_eq_some hs₂ hmore).imp fun _ _ h => ?_
    exact ⟨h.1, h.2.1, h.2.2.kept hkept₅⟩

/-! ## The inode -/

theorem rd32_foldl_ptr (q : Bytes) (ptr : ℕ → ℕ) (n : ℕ) {k : ℕ} (hk : k < n) :
    rd32 ((List.range n).foldl (fun q k => wr32 q (0x28 + k * 4) (ptr k)) q) (0x28 + k * 4) =
      ptr k % 2 ^ 32 := by
  induction n with
  | zero => omega
  | succ n ih =>
    rw [List.range_succ, List.foldl_append, List.foldl_cons, List.foldl_nil]
    by_cases hlast : k = n
    · rw [hlast, rd32_wr32]
    · rw [rd32_wr32_of_disjoint (by omega)]
      exact ih (by omega)

theorem ptr_inodeBytes {mode size links count : ℕ} {ptr : ℕ → ℕ} {k : Fin 15} (hk : k.val < 14)
    (hfit : ptr k < 2 ^ 32) :
    (Inode.decode (inodeBytes mode size links count ptr) 0).ptr k = ptr k := by
  have h := rd32_foldl_ptr (wr32 (wr16 (wr32 (wr16 zero 0x00 mode) 0x04 size) 0x1A links) 0x1C
    count) ptr 14 hk
  simp only [Inode.ptr, Inode.decode, BitVec.toNat_ofNat]
  rw [show 0 + 40 + 4 * k.val = 0x28 + k.val * 4 by omega]
  simp only [inodeBytes]
  rw [h, Nat.mod_mod, Nat.mod_eq_of_lt hfit]

structure InodeWritten (p : Params) (used : ℕ → Bool) (s : Builder) (ino : ℕ) (blocks : List ℕ)
    (i1 i2 : ℕ) : Prop where
  tables : Tables p used s blocks i1 i2
  direct_lt : ∀ b ∈ blocks.take 12, b < 2 ^ 32
  ptr : ∀ k : Fin 15, k.val < 14 → iblock blocks i1 i2 k < 2 ^ 32 →
    (Inode.decode (s.inodes ino) 0).ptr k = iblock blocks i1 i2 k

theorem writeInode_eq_some {ino mode size : ℕ} (hs : Stable p used s)
    (h : Mkfs.writeInode p ino mode size blocks s = (some (), s')) :
    ∃ i1 i2, InodeWritten p used s' ino blocks i1 i2 := by
  obtain ⟨-, hrest₁⟩ := of_pack_bind h
  obtain ⟨-, hrest₂⟩ := of_pack_bind hrest₁
  by_cases hbad : ∃ b ∈ blocks.take 12, 2 ^ 32 ≤ b
  · rw [if_pos hbad] at hrest₂
    cases hrest₂
  rw [if_neg hbad] at hrest₂
  obtain ⟨⟨i1, i2, extra⟩, s₃, htables, hrest₃⟩ := of_bind_eq_some hrest₂
  obtain ⟨-, hrest₄⟩ := of_pack_bind hrest₃
  simp only [setInode] at hrest₄
  by_cases hino : p.totalInodes ≤ ino
  · rw [if_pos hino] at hrest₄
    cases hrest₄
  rw [if_neg hino] at hrest₄
  cases hrest₄
  have ht := allocTables_eq_some hs htables
  refine ⟨i1, i2, ⟨ht.no_single, fun hlt => ?_, ht.no_double, fun hlt => ?_⟩, ?_,
    fun k hk hfit => ?_⟩
  · obtain ⟨hfit, hspare, htable⟩ := ht.single hlt
    exact ⟨hfit, hspare, htable.inUse, htable.bytes⟩
  · obtain ⟨l2, hfit, hspare, htable, hl2⟩ := ht.double hlt
    refine ⟨l2, hfit, hspare, ⟨htable.inUse, htable.bytes⟩, hl2.imp fun _ _ h => ?_⟩
    exact ⟨h.1, h.2.1, h.2.2.inUse, h.2.2.bytes⟩
  · simpa only [not_exists, not_and, not_le] using hbad
  · simp only [Function.update_self]
    exact ptr_inodeBytes hk hfit

/-! ## Lists -/

theorem rd32_tableOf (hfit : TableFits p entries) (k : ℕ) :
    rd32 (tableOf entries) (k * 4) = entries.getD k 0 := by
  have hlt : entries.getD k 0 < 2 ^ 32 := by
    rw [List.getD_eq_getElem?_getD]
    rcases hk : entries[k]? with _ | b
    · decide
    · exact hfit.entry b (List.mem_of_getElem? hk)
  rw [rd32_of_byteOf (v := entries.getD k 0), Nat.mod_eq_of_lt hlt]
  intro j hj
  simp only [tableOf]
  rw [show (k * 4 + j) / 4 = k by omega, show (k * 4 + j) % 4 = j by omega]

theorem getD_drop_take {l : List ℕ} {a n k : ℕ} (hk : k < n) :
    ((l.drop a).take n).getD k 0 = l.getD (a + k) 0 := by
  simp only [List.getD_eq_getElem?_getD, List.getElem?_take, if_pos hk, List.getElem?_drop]

theorem getD_of_length_le {l : List ℕ} {k : ℕ} (h : l.length ≤ k) : l.getD k 0 = 0 := by
  rw [List.getD_eq_getElem?_getD, List.getElem?_eq_none h, Option.getD_none]

theorem length_chunks (per : ℕ) (rest : List ℕ) :
    (chunks per rest).length = (rest.length + per - 1) / per := by
  rw [chunks, List.length_map, List.length_range]

theorem getElem?_chunks {per : ℕ} {rest : List ℕ} {i : ℕ} (hi : i < (chunks per rest).length) :
    (chunks per rest)[i]? = some ((rest.drop (i * per)).take per) := by
  rw [length_chunks] at hi
  rw [chunks, List.getElem?_map, List.getElem?_range hi, Option.map_some]

theorem length_le_chunks {per : ℕ} (hper : 0 < per) (rest : List ℕ) :
    rest.length ≤ (chunks per rest).length * per := by
  have h := Nat.lt_mul_div_succ (rest.length + per - 1) hper
  rw [Nat.mul_succ, Nat.mul_comm] at h
  rw [length_chunks]
  omega

/-! ## The size of an image -/

theorem countP_and_add_countP_and_not (f g : ℕ → Bool) (l : List ℕ) :
    l.countP (fun b => f b && g b) + l.countP (fun b => f b && !g b) = l.countP f := by
  induction l with
  | nil => rfl
  | cons a l ih =>
    simp only [List.countP_cons]
    rcases f a <;> rcases g a <;> simp <;> omega

theorem length_blockBits_le {g : ℕ} (h : BitsFit p s g) :
    (s.blockBits p g).length ≤ 8 * p.blockSize := by
  have hsub : s.blockBits p g ⊆ List.range (8 * p.blockSize) := by
    intro i hi
    rw [List.mem_range]
    by_contra hle
    exact h.1 ⟨i, hi, by omega⟩
  have hnodup : (s.blockBits p g).Nodup := by
    refine List.Nodup.map_on ?_ ((List.nodup_range' ..).filter _)
    intro a ha b hb heq
    have ha' := List.mem_range'_1.mp (List.mem_filter.mp ha).1
    have hb' := List.mem_range'_1.mp (List.mem_filter.mp hb).1
    omega
  simpa only [List.length_range] using (hnodup.subperm hsub).length_le

theorem groupEnd_lt {g : ℕ} (hg : GdescFits p s g) (hb : BitsFit p s g) :
    p.groupEnd g - p.base g < 2 ^ 16 + 8 * p.blockSize := by
  have hfree := hg.freeBlocks
  have hused := length_blockBits_le hb
  have hsum := countP_and_add_countP_and_not s.blockBitmap (p.isMetaOf g)
    (List.range' (p.base g) (p.groupEnd g - p.base g))
  rw [Builder.blockBits, List.length_map, ← List.countP_eq_length_filter] at hused
  simp only [Builder.groupFreeBlocks, countIn] at hfree
  omega

theorem sectors_fit (hm : Made p s₀) (hr : LayoutRight p used) (hfit : FlushFits p s) :
    p.totalBlocks * (p.blockSize / 512) ≤ 2 ^ 28 := by
  have hcount := hm.one_le_groupCount
  have h0 : 0 ∈ List.range' 0 p.groupCount := List.mem_range'_1.mpr ⟨le_rfl, by omega⟩
  have hend := groupEnd_lt (hfit.gdesc 0 h0) (hfit.bits 0 h0)
  have hgdt := hr.gdt_fits hm hfit.size
  simp only [Params.groupEnd, Params.base, Nat.zero_mul, Nat.zero_add, Nat.sub_zero] at hend
  -- All groups are as large as the first one, or there is only one.
  have htotal : p.totalBlocks ≤ p.groupCount * min p.blocksPerGroup p.totalBlocks := by
    rcases Nat.le_total p.blocksPerGroup p.totalBlocks with hle | hle
    · rw [Nat.min_eq_left hle]
      have := Nat.lt_mul_div_succ (p.totalBlocks + p.blocksPerGroup - 1) hm.blocksPerGroup_pos
      rw [Nat.mul_succ, Nat.mul_comm] at this
      simp only [Params.groupCount]
      omega
    · rw [Nat.min_eq_right hle]
      exact Nat.le_mul_of_pos_left _ hcount
  have hbound : p.totalBlocks ≤ p.groupCount * (2 ^ 16 + 8 * p.blockSize) :=
    htotal.trans (Nat.mul_le_mul_left _ hend.le)
  rcases hfit.size with hB | hB | hB <;>
    simp only [hB, reduceIte, Nat.reduceEqDiff] at hgdt hbound ⊢ <;> omega

/-! ## The driver -/

structure ImageTable (p : Params) (img : ByteArr) (b : ℕ) (entries : List ℕ) : Prop where
  ne_zero : b ≠ 0
  lt : b < p.totalBlocks
  fits : TableFits p entries
  bytes : ∀ k < p.blockSize, img.byte (b * p.blockSize + k) = tableOf entries k

/-- The metadata of an image do not overlap: not each other, and not a block that the builder has
taken since the constructor. -/
def Separate (p : Params) (s₀ s : Builder) : Prop :=
  LayoutRight p fun b => s₀.blockBitmap b || !s.blockBitmap b

theorem ImageTable.of_isTable (hm : Made p s₀) (hr : Separate p s₀ s) (hB : KnownSize p)
    (hfit : TableFits p entries) (hspare : Spare p s₀.blockBitmap b)
    (h : IsTable p s b entries) : ImageTable p (s.flushed p) b entries where
  ne_zero := by
    rintro rfl
    have h0 := (hm.marked 0).mpr (.inl rfl)
    rw [hspare.unused] at h0
    cases h0
  lt := hspare.lt
  fits := hfit
  bytes k hk := by
    have hfree : (s₀.blockBitmap b || !s.blockBitmap b) = false := by
      rw [hspare.unused, h.inUse]
      rfl
    refine (flushed_data hr hm hB (fun b hb => ?_) hfree hk).trans (h.bytes k hk)
    rw [hb, Bool.true_or]

theorem readInd_table (hsec : p.totalBlocks * (p.blockSize / 512) ≤ 2 ^ 28) (hB : KnownSize p)
    (h : ImageTable p img b entries) (fs : Fs)
    (hdisk : fs.disk = (imageFs (mountOf p) img).disk) (hfault : fs.fault = fun _ => none) :
    ∃ fs', readInd (mountOf p) b fs = (some (), fs') ∧ fs'.disk = fs.disk ∧
      fs'.fault = fs.fault ∧ ∀ k < p.blockSize / 4, rd32 fs'.indbuf (k * 4) = entries.getD k 0 := by
  have hphys : physBlock (mountOf p) b = b := by
    have hlt := h.lt
    simp only [physBlock, mountOf]
    rcases hB with hB | hB | hB <;> rw [hB] at hsec ⊢ <;> omega
  refine ⟨{ fs with indbuf := drop img.byte (b * p.blockSize) }, ?_, rfl, rfl, fun k hk => ?_⟩
  · simp only [readInd, hphys, hfault, hdisk]
    rfl
  · rw [← rd32_tableOf h.fits k]
    exact rd32_congr fun j hj => h.bytes _ (by omega)

structure PointersOk (p : Params) (img : ByteArr) (i : Inode) (blocks : List ℕ) : Prop where
  sectors : p.totalBlocks * (p.blockSize / 512) ≤ 2 ^ 28
  size : KnownSize p
  direct : ∀ k : Fin 15, k.val < 12 → i.ptr k = blocks.getD k 0
  no_single : blocks.length ≤ 12 → i.ptr 12 = 0
  single : 12 < blocks.length →
    ImageTable p img (i.ptr 12) ((blocks.drop 12).take (p.blockSize / 4))
  no_double : blocks.length ≤ 12 + p.blockSize / 4 → i.ptr 13 = 0
  double : 12 + p.blockSize / 4 < blocks.length → ∃ l2, ImageTable p img (i.ptr 13) l2 ∧
    List.Forall₂ (ImageTable p img) l2
      (chunks (p.blockSize / 4) (blocks.drop (12 + p.blockSize / 4)))

theorem dataBlock_double {i : Inode} (h : PointersOk p img i blocks) {idx : ℕ}
    (hidx : 12 + p.blockSize / 4 ≤ idx) :
    (dataBlock (mountOf p) i idx (imageFs (mountOf p) img)).1 = some (blocks.getD idx 0) := by
  have hper : perBlk (mountOf p) = p.blockSize / 4 := rfl
  have hpos : 0 < p.blockSize / 4 := by
    rcases h.size with hB | hB | hB <;> rw [hB] <;> decide
  simp only [dataBlock, hper, if_neg (show ¬ idx < 12 by omega),
    if_neg (show ¬ idx - 12 < p.blockSize / 4 by omega)]
  rcases Nat.lt_or_ge (12 + p.blockSize / 4) blocks.length with hlen | hlen
  swap
  · rw [if_pos (h.no_double hlen), getD_of_length_le (by omega)]
    rfl
  obtain ⟨l2, hroot, hl2⟩ := h.double hlen
  obtain ⟨fs₁, hread, hdisk, hfault, hentry⟩ := readInd_table h.sectors h.size hroot
    (imageFs (mountOf p) img) rfl rfl
  rw [if_neg hroot.ne_zero, attempt_bind_run, hread]
  -- The blocks behind the table of tables, and how many there can be.
  have hrest := length_le_chunks hpos (blocks.drop (12 + p.blockSize / 4))
  rw [← hl2.length_eq, List.length_drop] at hrest
  obtain ⟨d, rfl⟩ := Nat.exists_eq_add_of_le hidx
  have hd : 12 + p.blockSize / 4 + d - 12 - p.blockSize / 4 = d := by omega
  have hsplit := Nat.div_add_mod' d (p.blockSize / 4)
  have hfew := hroot.fits.length
  simp only [hd]
  rcases Nat.lt_or_ge (d / (p.blockSize / 4)) l2.length with hin | hout
  · have hchunk := getElem?_chunks (hl2.length_eq ▸ hin)
    rw [if_neg (by omega), gets_bind_run, hentry _ (by omega)]
    have htable := hl2.get hin (hl2.length_eq ▸ hin)
    rw [List.get_eq_getElem, List.get_eq_getElem,
      (List.getElem?_eq_some_iff.mp hchunk).2] at htable
    have hget : l2.getD (d / (p.blockSize / 4)) 0 = l2[d / (p.blockSize / 4)] := by
      rw [List.getD_eq_getElem?_getD, List.getElem?_eq_getElem hin, Option.getD_some]
    obtain ⟨fs₂, hread₂, -, -, hentry₂⟩ := readInd_table h.sectors h.size htable fs₁ hdisk hfault
    rw [hget, if_neg htable.ne_zero, attempt_bind_run, hread₂]
    simp only [gets_run]
    rw [hentry₂ _ (Nat.mod_lt _ hpos), getD_drop_take (Nat.mod_lt _ hpos), hsplit]
    simp only [List.getD_eq_getElem?_getD, List.getElem?_drop]
  · have hnone : blocks.getD (12 + p.blockSize / 4 + d) 0 = 0 := by
      refine getD_of_length_le ?_
      have := Nat.mul_le_mul_right (p.blockSize / 4) hout
      omega
    rw [hnone]
    split_ifs with hmany
    · rfl
    · rw [gets_bind_run, hentry _ (by omega), getD_of_length_le hout, if_pos rfl]
      rfl

theorem dataBlock_run {i : Inode} (h : PointersOk p img i blocks) (idx : ℕ) :
    (dataBlock (mountOf p) i idx (imageFs (mountOf p) img)).1 = some (blocks.getD idx 0) := by
  have hper : perBlk (mountOf p) = p.blockSize / 4 := rfl
  rcases Nat.lt_or_ge idx 12 with hdirect | hge
  · have hofNat : (Fin.ofNat 15 idx).val = idx := Nat.mod_eq_of_lt (by omega)
    have hptr := h.direct (Fin.ofNat 15 idx) (by rw [hofNat]; exact hdirect)
    simp only [dataBlock, if_pos hdirect]
    rw [pure_run, hptr, hofNat]
  rcases Nat.lt_or_ge idx (12 + p.blockSize / 4) with hsingle | hdouble
  · simp only [dataBlock, hper, if_neg (Nat.not_lt.mpr hge),
      if_pos (show idx - 12 < p.blockSize / 4 by omega)]
    rcases Nat.lt_or_ge 12 blocks.length with hlen | hlen
    · have htable := h.single hlen
      obtain ⟨fs', hread, -, -, hentry⟩ := readInd_table h.sectors h.size htable
        (imageFs (mountOf p) img) rfl rfl
      rw [if_neg htable.ne_zero, attempt_bind_run, hread]
      simp only [gets_run]
      rw [hentry _ (by omega), getD_drop_take (by omega)]
      congr 2
      omega
    · rw [if_pos (h.no_single hlen), getD_of_length_le (by omega)]
      rfl
  · exact dataBlock_double h hdouble

theorem InodeWritten.pointersOk {ino i1 i2 : ℕ}
    (hw : InodeWritten p used s ino blocks i1 i2) (hB : KnownSize p)
    (hsec : p.totalBlocks * (p.blockSize / 512) ≤ 2 ^ 28) (htotal : p.totalBlocks < 2 ^ 32)
    (htable : ∀ {b : ℕ} {entries : List ℕ}, TableFits p entries ∧ Spare p used b ∧
      IsTable p s b entries → ImageTable p img b entries) :
    PointersOk p img (Inode.decode (s.inodes ino) 0) blocks := by
  have hdirect : ∀ k < 12, blocks.getD k 0 < 2 ^ 32 := by
    intro k hk
    rw [List.getD_eq_getElem?_getD]
    rcases hget : blocks[k]? with _ | b
    · decide
    · refine hw.direct_lt b (List.mem_of_getElem? (i := k) ?_)
      rw [List.getElem?_take, if_pos hk, hget]
  have hi1 : i1 < 2 ^ 32 := by
    rcases Nat.lt_or_ge 12 blocks.length with hlt | hle
    · exact (hw.tables.single hlt).2.1.lt.trans htotal
    · rw [hw.tables.no_single hle]
      decide
  have hi2 : i2 < 2 ^ 32 := by
    rcases Nat.lt_or_ge (12 + p.blockSize / 4) blocks.length with hlt | hle
    · obtain ⟨l2, -, hspare, -⟩ := hw.tables.double hlt
      exact hspare.lt.trans htotal
    · rw [hw.tables.no_double hle]
      decide
  have hptr1 : (Inode.decode (s.inodes ino) 0).ptr 12 = i1 := hw.ptr 12 (by decide) hi1
  have hptr2 : (Inode.decode (s.inodes ino) 0).ptr 13 = i2 := hw.ptr 13 (by decide) hi2
  refine ⟨hsec, hB, fun k hk => ?_, fun hle => ?_, fun hlt => ?_, fun hle => ?_, fun hlt => ?_⟩
  · have hk' : iblock blocks i1 i2 k = blocks.getD k 0 := if_pos hk
    rw [hw.ptr k (by omega) (hk' ▸ hdirect k hk), hk']
  · exact hptr1.trans (hw.tables.no_single hle)
  · rw [hptr1]
    exact htable (hw.tables.single hlt)
  · exact hptr2.trans (hw.tables.no_double hle)
  · obtain ⟨l2, hfit, hspare, hroot, hl2⟩ := hw.tables.double hlt
    rw [hptr2]
    exact ⟨l2, htable ⟨hfit, hspare, hroot⟩, hl2.imp fun _ _ h => htable h⟩

/-! ## Agreement -/

/-- **Builder and driver agree on block pointers.**  The inode was written by `write_inode` in some
state `s` of the builder, the builder went on, and the image was written at the end. -/
theorem data_block_agrees (p : Params) (s₀ s s₁ s₂ s₃ : Builder) (img : ByteArr)
    (ino mode size : ℕ) (blocks : List ℕ) (calls : List Call)
    (hinit : Builder.init p = some s₀) (hs : Stable p s₀.blockBitmap s)
    (hwrite : Mkfs.writeInode p ino mode size blocks s = (some (), s₁))
    (hcalls : runCalls p calls s₁ = (some (), s₂)) (hflush : flush p s₂ = (some img, s₃))
    (hr : Separate p s₀ s₂) (k : ℕ) :
    (dataBlock (mountOf p) (Inode.decode (s₁.inodes ino) 0) k (imageFs (mountOf p) img)).1 =
      some (blocks.getD k 0) := by
  have hm := init_made hinit
  have hB := knownSize_of_flush hflush
  have hs₁ := (writeInode_keeps _ _ _ _ s () s₁ hs hwrite).1.toStable
  have hkept := (runCalls_keeps calls).kept hs₁ hcalls
  have hin : PiecesInside p s₂.img.len := by
    rw [hkept.len]
    exact piecesInside hm hr hB
  have hfit := flushFits_of_eq_some hin hflush
  obtain rfl : s₂.flushed p = img := by
    rw [flush_run hfit hin] at hflush
    exact Option.some.inj (congrArg Prod.fst hflush)
  obtain ⟨i1, i2, hw⟩ := writeInode_eq_some hs hwrite
  have htable : ∀ {b : ℕ} {entries : List ℕ}, TableFits p entries ∧ Spare p s₀.blockBitmap b ∧
      IsTable p s₁ b entries → ImageTable p (s₂.flushed p) b entries := fun h =>
    .of_isTable hm hr hB h.1 h.2.1 (h.2.2.kept hkept)
  exact dataBlock_run (hw.pointersOk hB (sectors_fit hm hr hfit) hfit.super.totalBlocks htable) k

/-- An inode with thirteen blocks, the last one behind a table. -/
theorem data_block_agrees_small : ∃ s₀ s₁ s₃ img, Builder.init smallImage = some s₀ ∧
    Mkfs.writeInode smallImage 12 sIfReg 13312 (List.range' 30 13) s₀ = (some (), s₁) ∧
    flush smallImage s₁ = (some img, s₃) ∧ ∀ k,
      (dataBlock (mountOf smallImage) (Inode.decode (s₁.inodes 12) 0) k
        (imageFs (mountOf smallImage) img)).1 = some ((List.range' 30 13).getD k 0) := by
  have hrun : ((Builder.init smallImage).map fun s₀ =>
      ((Mkfs.writeInode smallImage 12 sIfReg 13312 (List.range' 30 13) >>= fun _ =>
        flush smallImage) s₀).1.isSome) = some true := by
    decide +kernel
  obtain ⟨s₀, hinit, hsome⟩ := Option.map_eq_some_iff.mp hrun
  obtain ⟨img, himg⟩ := Option.isSome_iff_exists.mp hsome
  obtain ⟨_, s₁, hwrite, hflush⟩ := of_bind_eq_some (Prod.ext himg rfl)
  have hm := init_made hinit
  have hf : LayoutFits smallImage := ⟨by decide, by decide, .inl (by decide)⟩
  have hright := hf.right (.inl rfl) hm
  have hr : Separate smallImage s₀ s₁ := ⟨hright.gdesc, hright.disjoint, hright.inside,
    fun r hv b hmeet => by rw [hright.marked r hv b hmeet, Bool.true_or]⟩
  exact ⟨s₀, s₁, _, img, hinit, hwrite, hflush, data_block_agrees smallImage s₀ s₀ s₁ s₁ _ img 12
    sIfReg 13312 _ [] hinit ⟨congrArg ByteArr.len hm.img, fun _ hb => hb⟩ hwrite rfl hflush hr⟩

end BananaOS.Mkfs
