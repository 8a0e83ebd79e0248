import BananaOS.Ext2.Frame
import BananaOS.Ext2.Truncate

/-!
# Inserting a name

`ext2_dir_insert` uses the first free record that is long enough.  If there is none it adds a block
at the end of the directory, behind a direct pointer or in the table behind `i_block[12]`, which it
may have to create first.  It does not go further than that table, and it overwrites the pointer it
finds behind the end of the directory.
-/

namespace BananaOS.Ext2

open Function Bytes FailState BlockTree RecordChain

section

variable {v : Volume} {s s₁ s' : Fs} {i i' : Inode} {n : ℕ} {name : Name} {x ftype : ℕ}

/-! ## A new block -/

variable {b : ℕ}

theorem CanAllocBlock.congr (h : CanAllocBlock v s) (hm : SameMeta v s s')
    (hc : s'.sFreeBlocksCount = s.sFreeBlocksCount) : CanAllocBlock v s' := by
  obtain ⟨h0, g, hg, k, hk, hf⟩ := h
  have hg' := lt_groups_of_lt_blockGroupCount hg
  refine ⟨by rwa [hc], g, hg, k, hk, hf.congr ?_ ?_⟩
  · exact hm.disk _ (.inl (.inr ⟨g, hg', .inr (.inl rfl)⟩))
  · exact hm.disk _ (.inl (.inr ⟨g, hg', .inl rfl⟩))

theorem enterInTable_run (hh : ∀ b, s.fault b = none) {t k : ℕ} (ht : t < v.m.sBlocksCount) :
    enterInTable v.m t k b s = (some (), { s with
      indbuf := wr32 (s.disk t) (k * 4) b
      disk := update s.disk t (wr32 (s.disk t) (k * 4) b) }) := by
  rw [enterInTable, attempt_bind_run, readInd_run hh ht]
  simp only [editInd]
  rw [modify_bind_run, attempt_bind_run, writeInd_run (v := v) (by exact hh) ht]
  rfl

theorem dropBlock_run (h : freeBlock v.m b s = (some (), s')) :
    dropBlock v.m b s = (some (), s') := by
  rw [dropBlock, attempt_bind_run, h]
  rfl

theorem sameMeta_withBlock (hb : ¬ v.IsMeta b) (data : Bytes) : SameMeta v s (s.withBlock b data) :=
  ⟨fun y hy => update_of_ne (fun he => hb (by rwa [he] at hy)) _ _, rfl⟩

theorem outside_of_freed {s₂ s₃ : Fs} {data : Bytes} (hwf : WellFormed v s)
    (ha : BlockAlloced v s b s₁) (hb : b ≠ 0) (ha₂ : BlockAlloced v (s₁.withBlock b data) 0 s₂)
    (hf : BlockFreed v s₂ b s₃) : Outside v ∅ s s₃ ∧ SameCache s s₃ := by
  obtain ⟨hblt, hfree, -⟩ := ha.fresh hb
  have hbm : ¬ v.IsMeta b := fun hm => by
    rw [hwf.metaUsed b hblt hm] at hfree
    cases hfree
  have hmeta := sameMeta_withBlock (s := s₁) hbm data
  refine ⟨outside_of_frame hwf hf.step.inv (fun y hy hu => ?_) (fun k hk => ?_)
    (fun y _ hu hm => ?_) (hf.step.now.trans (ha₂.step.now.trans ha.step.now)),
    hf.step.dcache.trans (ha₂.step.dcache.trans ha.step.dcache),
    hf.step.dcacheNext.trans (ha₂.step.dcacheNext.trans ha.step.dcacheNext)⟩
  · rw [hf.used y hy, decide_eq_false (ha.ne_of_used hb hu), ha₂.used_mono y hy
      ((hmeta.used hy).trans (ha.used_mono y hy hu))]
    rfl
  · rw [hf.inoBit k hk, ha₂.inoBit k hk, hmeta.inoBit hk, ha.inoBit k hk]
  · calc s₃.disk y = s₂.disk y := hf.step.data y hm
      _ = (s₁.withBlock b data).disk y := ha₂.step.data y hm
      _ = s₁.disk y := update_of_ne (ha.ne_of_used hb hu) _ _
      _ = s.disk y := ha.step.data y hm

/-- What it leaves behind to enter block `b`, with the given bytes, as block `nb` of a directory. -/
structure Entered (v : Volume) (n : ℕ) (s : Fs) (i : Inode) (nb b : ℕ) (data : Bytes) (s' : Fs)
    (i' : Inode) : Prop where
  regrown : Regrown v n s i s' i'
  block : ∀ c ≤ nb, s'.block i' (slotOf v.m c) = if c = nb then b else s.block i (slotOf v.m c)
  old : ∀ c < nb, s.block i (slotOf v.m c) ≠ 0 →
    s'.disk (s.block i (slotOf v.m c)) = s.disk (s.block i (slotOf v.m c))
  new : s'.disk b = data

theorem lt_maxBlocks {c : ℕ} (h : c < 12 + perBlk v.m) : c < maxBlocks v.m := by
  unfold maxBlocks
  omega

theorem Entered.of_put {nb : ℕ} {data : Bytes} (hnb : nb < 12 + perBlk v.m)
    (h : Regrown v n s i s' i') (hd : SameData v s i s')
    (hat : ∀ p : Slot (Fin 14), p.Valid (shape v.m) →
      s'.block i' p = if p = slotOf v.m nb then b else s.block i p)
    (hnew : s'.disk b = data) : Entered v n s i nb b data s' i' := by
  refine ⟨h, fun c hc => ?_, fun c hc h0 => ?_, hnew⟩
  · rw [hat _ (slotOf_valid (lt_maxBlocks (by omega))).1]
    by_cases he : c = nb
    · rw [if_pos he, if_pos (congrArg _ he)]
    · rw [if_neg he, if_neg fun hs => he (slotOf_inj hs)]
  · obtain ⟨hv, hl⟩ := slotOf_valid (v := v) (lt_maxBlocks (c := c) (by omega))
    exact hd _ hv hl h0

theorem enterBlock_old (hw : Writing v s n i) {nb : ℕ} (ha : BlockAlloced v s b s₁) (hb : b ≠ 0)
    (hnb : nb < 12 + perBlk v.m) (hold : nb < 12 ∨ i.ptr 12 ≠ 0) (data : Bytes) :
    ∃ i' s', enterBlock v.m i nb b (s₁.withBlock b data) = (some i', s') ∧
      Entered v n s i nb b data s' i' := by
  rw [enterBlock]
  by_cases h12 : nb < 12
  · have hl : ¬ 0 < (shape v.m).level (Fin.ofNat 14 nb) := by
      have : (shape v.m).level (Fin.ofNat 14 nb) = 0 := level_direct (v := v) h12
      omega
    obtain ⟨⟨hg, hd⟩, hat⟩ := hw.put_root (s₁.withBlock b data) ha hb (r := Fin.ofNat 14 nb)
      (fun hc => absurd hc hl) ⟨rfl, rfl, rfl, rfl⟩ (fun y hy => update_of_ne hy _ _)
      fun hc => absurd hc hl
    rw [castLE_ofNat h12] at hg hat
    rw [← slotOf_direct (m := v.m) h12] at hat
    rw [if_pos h12]
    exact ⟨_, _, rfl, .of_put hnb hg hd hat (update_self _ _ _)⟩
  · have h0 : i.ptr 12 ≠ 0 := hold.resolve_left h12
    have hp0 : s.block i (.root 12) ≠ 0 := h0
    have hlt : i.ptr 12 < v.m.sBlocksCount := (hw.ok (q := .root 12) trivial hp0).1
    have hne : i.ptr 12 ≠ b := hw.ne_alloced (q := .root 12) ha hb trivial
    have hslot := slotOf_single (m := v.m) h12 (show nb - 12 < perBlk v.m by omega)
    rw [if_neg h12, if_pos hnb, if_neg h0, bind_of_some (enterInTable_run (v := v)
      (by exact ha.step.inv.healthy) hlt)]
    have htab : (s₁.withBlock b data).disk (i.ptr 12) = s.disk (i.ptr 12) :=
      (update_of_ne hne _ _).trans (hw.disk_alloced ha (q := .root 12) trivial hp0)
    obtain ⟨⟨hg, hd⟩, hat⟩ := hw.put_entry { s₁.withBlock b data with
        indbuf := wr32 ((s₁.withBlock b data).disk (i.ptr 12)) ((nb - 12) * 4) b
        disk := update (s₁.withBlock b data).disk (i.ptr 12)
          (wr32 ((s₁.withBlock b data).disk (i.ptr 12)) ((nb - 12) * 4) b) } ha hb
      (single_valid (v := v) (k := nb - 12) (by omega)) hp0 (fun hc => absurd hc (Nat.lt_irrefl 0))
      ⟨rfl, rfl, rfl, rfl⟩
      (by
        show update (s₁.withBlock b data).disk (i.ptr 12) _ (i.ptr 12) = _
        rw [update_self, htab]
        rfl)
      (fun y hy hyt => (update_of_ne hyt _ _).trans (update_of_ne hy _ _))
      fun hc => absurd hc (Nat.lt_irrefl 0)
    rw [← hslot] at hat
    refine ⟨_, _, rfl, .of_put hnb hg hd hat ?_⟩
    exact (update_of_ne (Ne.symm hne) _ _).trans (update_self _ _ _)

theorem enterBlock_new (hw : Writing v s n i) {nb : ℕ} (ha : BlockAlloced v s b s₁) (hb : b ≠ 0)
    (hnb : nb < 12 + perBlk v.m) (h12 : 12 ≤ nb) (h0 : i.ptr 12 = 0) (data : Bytes) :
    (∃ i' s', enterBlock v.m i nb b (s₁.withBlock b data) = (some i', s') ∧
      Entered v n s i nb b data s' i') ∨
    (¬ CanAllocBlock v (s₁.withBlock b data) ∧ ∃ s₂ s₃,
      allocBlock v.m (s₁.withBlock b data) = (some 0, s₂) ∧
      BlockAlloced v (s₁.withBlock b data) 0 s₂ ∧ freeBlock v.m b s₂ = (some (), s₃) ∧
      BlockFreed v s₂ b s₃ ∧ enterBlock v.m i nb b (s₁.withBlock b data) = (none, s₃)) := by
  obtain ⟨hblt, hfree, -⟩ := ha.fresh hb
  obtain ⟨hg₂, hsame, hset⟩ := hw.alloc ha (s₁.withBlock b data) ⟨rfl, rfl, rfl, rfl⟩
    fun y hy => update_of_ne (hy hb) _ _
  have hset := hset hb
  have hw₂ := hg₂.inv
  obtain ⟨t, s₂, hrun, ha₂, hcan⟩ := allocBlock_spec hw₂.trees.toMetaInv
  rw [enterBlock, if_neg (by omega), if_pos hnb, if_pos h0, bind_of_some hrun]
  by_cases ht : t = 0
  · subst ht
    obtain ⟨s₃, hrun₃, hf⟩ := freeBlock_spec ha₂.step.inv hb hblt
    refine .inr ⟨fun hc => hcan.mpr hc rfl, s₂, s₃, hrun, ha₂, hrun₃, hf, ?_⟩
    rw [if_pos rfl, bind_of_some (dropBlock_run hrun₃)]
    rfl
  · have htlt := (ha₂.fresh ht).1
    have htb : t ≠ b := (ha₂.ne_of_used ht hset).symm
    rw [if_neg ht, attempt_bind_run, newTable_run ha₂.step.inv.healthy htlt]
    simp only
    rw [bind_of_some (enterInTable_run (v := v) (by exact ha₂.step.inv.healthy) htlt)]
    -- the table joins the tree first, with the new block still outside
    obtain ⟨⟨hg₃, hd₃⟩, hat₃⟩ := hw₂.put_root { s₂ with
        indbuf := zero, disk := update s₂.disk t zero } ha₂ ht (r := 12)
      (fun _ => (hsame (.root 12) trivial).trans h0) ⟨rfl, rfl, rfl, rfl⟩
      (fun y hy => update_of_ne hy _ _) fun _ => emptyTable_update _ _
    have hi₃ : i.setPtr ((12 : Fin 14).castLE (by decide)) t = i.setPtr 12 t := rfl
    rw [hi₃] at hg₃ hat₃
    set s₃ : Fs := { s₂ with indbuf := zero, disk := update s₂.disk t zero } with hs₃
    have hroot : s₃.block (i.setPtr 12 t) (.root 12) = t := (hat₃ (.root 12) trivial).trans
      (if_pos rfl)
    have hnot : ∀ p : Slot (Fin 14), p.Valid (shape v.m) → s₃.block (i.setPtr 12 t) p ≠ b := by
      intro p hp
      rw [hat₃ p hp]
      by_cases he : p = .root 12
      · rw [if_pos he]
        exact htb
      · rw [if_neg he, hsame p hp]
        exact hw.ne_alloced ha hb hp
    have hg := hg₂.trans hg₃
    have hset₃ : s₃.used v b = true := hg₃.used b hblt hset
    have hslot := slotOf_single (m := v.m) (not_lt.mpr h12) (show nb - 12 < perBlk v.m by omega)
    have hk : nb - 12 < perBlk v.m := by omega
    set s₄ : Fs := { s₃ with
      indbuf := wr32 (s₃.disk t) ((nb - 12) * 4) b
      disk := update s₃.disk t (wr32 (s₃.disk t) ((nb - 12) * 4) b) } with hs₄
    have hout : ∀ y, y ≠ t → s₄.disk y = s₃.disk y := fun y hy => update_of_ne hy _ _
    have hat : ∀ p : Slot (Fin 14), p.Valid (shape v.m) →
        s₄.block (i.setPtr 12 t) p =
          if p = slotOf v.m nb then b else s₃.block (i.setPtr 12 t) p := by
      rw [hslot]
      refine blockAt_attach_entry (p := .root 12) (by
          show s₃.block (i.setPtr 12 t) (.root 12) ≠ 0
          rwa [hroot]) (fun hc => absurd hc (Nat.lt_irrefl 0)) hb (blocksCount_lt v hblt) ?_ ?_
        fun hc => absurd hc (Nat.lt_irrefl 0)
      · show s₄.disk (s₃.block (i.setPtr 12 t) (.root 12)) =
          wr32 (s₃.disk (s₃.block (i.setPtr 12 t) (.root 12))) _ b
        rw [hroot]
        exact update_self _ _ _
      · intro p hp hp0 hne
        refine hout _ fun he => hne (hg₃.inv.inj hp trivial hp0 (he.trans hroot.symm))
    obtain ⟨hput, hdata⟩ := hg.enter (q := slotOf v.m nb) (i.setPtr 12 t) s₄ hw hb hblt
      hfree hset₃ hnot ⟨rfl, rfl, rfl, rfl⟩
      (fun y _ hn => hout y fun hy => hn (.root 12) trivial Nat.one_pos
        (by rw [hroot]; exact ht) (hroot.trans hy.symm)) rfl hat
    refine .inl ⟨i.setPtr 12 t, s₄, rfl, hput, fun c hc => ?_, fun c hc hc0 => ?_, ?_⟩
    · have hv := (slotOf_valid (v := v) (lt_maxBlocks (c := c) (by omega))).1
      have hne12 : slotOf v.m c ≠ .root 12 := by
        intro he
        have hl := (slotOf_valid (v := v) (lt_maxBlocks (c := c) (by omega))).2
        rw [he] at hl
        exact absurd hl Nat.one_ne_zero
      rw [hat _ hv, hat₃ _ hv, if_neg hne12, hsame _ hv]
      by_cases he : c = nb
      · rw [if_pos he, if_pos (congrArg _ he)]
      · rw [if_neg he, if_neg fun hs => he (slotOf_inj hs)]
    · obtain ⟨hv, hl⟩ := slotOf_valid (v := v) (lt_maxBlocks (c := c) (by omega))
      have h2 : (s₁.withBlock b data).block i (slotOf v.m c) = s.block i (slotOf v.m c) := hsame _ hv
      have hct := hw₂.ne_alloced ha₂ ht hv
      have hd₂ := hw₂.disk_alloced ha₂ hv (by rwa [h2])
      rw [h2] at hct hd₂
      calc s₄.disk (s.block i (slotOf v.m c))
          = s₃.disk (s.block i (slotOf v.m c)) := hout _ hct
        _ = s₂.disk (s.block i (slotOf v.m c)) := update_of_ne hct _ _
        _ = (s₁.withBlock b data).disk (s.block i (slotOf v.m c)) := hd₂
        _ = s₁.disk (s.block i (slotOf v.m c)) := update_of_ne (hw.ne_alloced ha hb hv) _ _
        _ = s.disk (s.block i (slotOf v.m c)) := hw.disk_alloced ha hv hc0
    · have hbm : ¬ v.IsMeta b := hw.not_meta hblt hfree
      calc s₄.disk b = s₃.disk b := hout b htb.symm
        _ = s₂.disk b := update_of_ne htb.symm _ _
        _ = (s₁.withBlock b data).disk b := ha₂.step.data b fun hc => hbm (.inl hc)
        _ = data := update_self _ _ _

/-! ## The directory with one block more -/

/-- The directory can get another block: the tables reach it, and there are free blocks for it and
for the table that may have to be created. -/
def Appendable (v : Volume) (s : Fs) (i : Inode) : Prop :=
  dirBlocks v.m i < 12 + perBlk v.m ∧ CanAllocBlock v s ∧
    (12 ≤ dirBlocks v.m i → i.ptr 12 = 0 → CanAllocBlock v (allocBlock v.m s).2)

/-- How an insertion fails: it gets no block, or it gives back the block it got and wrote to, be it
that there is none for the table or that the directory may not grow. -/
inductive GivenBack (v : Volume) (s s' : Fs) : Prop
  | none (h : allocBlock v.m s = (some 0, s'))
  | freed {b : ℕ} {s₁ s₂ : Fs} {data : Bytes} (halloc : allocBlock v.m s = (some b, s₁))
      (hb : b ≠ 0)
      (htable : s₂ = s₁.withBlock b data ∨ allocBlock v.m (s₁.withBlock b data) = (some 0, s₂))
      (hfree : freeBlock v.m b s₂ = (some (), s'))

theorem dirBlocks_append (hsize : i.size.toNat + v.m.blkSize ≤ 2 ^ 32)
    (hnb : dirBlocks v.m i < 12 + perBlk v.m)
    (h' : i'.size = i.size + BitVec.ofNat 32 v.m.blkSize) :
    dirBlocks v.m i' = dirBlocks v.m i + 1 ∧ i'.size.toNat + v.m.blkSize ≤ 2 ^ 32 := by
  simp only [dirBlocks, perBlk, h', BitVec.toNat_add, BitVec.toNat_ofNat] at hnb ⊢
  rcases v.blkSize_cases with h | h | h <;> rw [h] at hsize hnb ⊢ <;> omega

structure Inserted (v : Volume) (n : ℕ) (name : Name) (x ftype : ℕ) (s s' : Fs) : Prop where
  outside : Outside v {n} s s'
  cache : SameCache s s'
  live : s'.Live v n
  record : s'.inode v n = { s.inode v n with
    size := (s'.inode v n).size, mtime := (s'.inode v n).mtime
    blocks := (s'.inode v n).blocks, block := (s'.inode v n).block }
  dir : DirOk v s' (s'.inode v n)
  entries : (s'.entries v (s'.inode v n)).Perm ((name, x) :: s.entries v (s.inode v n))
  grown : dirBlocks v.m (s.inode v n) ≤ dirBlocks v.m (s'.inode v n)
  block : ∀ c < dirBlocks v.m (s.inode v n),
    s'.block (s'.inode v n) (slotOf v.m c) = s.block (s.inode v n) (slotOf v.m c)
  /-- A block is as it was, or a free record of it has been used. -/
  place : ∀ c < dirBlocks v.m (s.inode v n),
    s'.dirBlock v (s'.inode v n) c = s.dirBlock v (s.inode v n) c ∨
    ∃ o l₁ l₂, RecordAt v s (s.inode v n) c o l₁ l₂ ∧
      isFreeFor (neededLen name) (s.dirBlock v (s.inode v n) c) o = true ∧
      s'.dirBlock v (s'.inode v n) c =
        useSlot (s.dirBlock v (s.inode v n) c) o name x ftype

theorem Entered.inserted (hw : Writing v s n (s.inode v n))
    (hd : DirOk v s (s.inode v n)) (hnb : dirBlocks v.m (s.inode v n) < 12 + perBlk v.m)
    (hlen : name.length ≤ 255) (hx : x ≠ 0) (hx32 : x < 2 ^ 32)
    (h : Entered v n s (s.inode v n) (dirBlocks v.m (s.inode v n)) b
      (firstRecord v.m name x ftype) s₁ i) (hb : b ≠ 0)
    (hsize : i'.size = i.size + BitVec.ofNat 32 v.m.blkSize)
    (hrec : i' = { i with
      size := i'.size, mtime := i'.mtime, blocks := i'.blocks }) :
    Inserted v n name x ftype s (s₁.withInode v n i') := by
  set nb := dirBlocks v.m (s.inode v n)
  have hroots : i'.roots = i.roots := by rw [hrec]; rfl
  obtain ⟨hout, hlive, htree⟩ := h.regrown.outside hw hroots
  set s₂ := s₁.withInode v n i'
  have hself := inode_withInode_self (v := v) (s := s₁) n i'
  have hold : i.size = (s.inode v n).size := by rw [h.regrown.record]
  rw [hold] at hsize
  obtain ⟨hcount, hbound⟩ := dirBlocks_append hd.size_le hnb hsize
  -- the blocks of the directory, the old ones and the new one
  have hslot : ∀ c ≤ nb, (slotOf v.m c).Valid (shape v.m) :=
    fun c hc => (slotOf_valid (lt_maxBlocks (by omega))).1
  have hb₁ : ∀ q, s₁.block i' q = s₁.block i q := fun q => by rw [Fs.block, Fs.block, hroots]
  have hblock : ∀ c ≤ nb, s₂.block i' (slotOf v.m c) =
      if c = nb then b else s.block (s.inode v n) (slotOf v.m c) := by
    intro c hc
    rw [htree.block _ (hslot c hc), hb₁]
    exact h.block c hc
  have hdata : ∀ c ≤ nb, s₁.block i (slotOf v.m c) ≠ 0 →
      s₂.dirBlock v i' c = s₁.disk (s₁.block i (slotOf v.m c)) := by
    intro c hc h0
    rw [Fs.dirBlock, htree.block _ (hslot c hc), ← hb₁]
    exact htree.data _ (hslot c hc) (by rwa [hb₁])
  have hnew : s₂.dirBlock v i' nb = firstRecord v.m name x ftype := by
    have he := h.block _ (le_refl _)
    rw [if_pos rfl] at he
    rw [hdata _ (le_refl _) (by rwa [he]), he, h.new]
  have hkeep : ∀ c < nb, s₂.dirBlock v i' c = s.dirBlock v (s.inode v n) c := by
    intro c hc
    have he := h.block c hc.le
    rw [if_neg hc.ne] at he
    have h0 := (hd.present c hc).2
    rw [hdata c hc.le (by rwa [he]), he]
    exact h.old c hc h0
  obtain ⟨ht, hfirst⟩ := tiled_firstRecord (m := v.m) ftype (blkSize_lt v).2
    (blkSize_lt v).1 hlen hx hx32
  refine ⟨hout, ⟨h.regrown.vars.dcache, h.regrown.vars.dcacheNext⟩, hlive, ?_, ?_, ?_, ?_, ?_, ?_⟩
  · rw [hself]
    have hr := h.regrown.record
    rw [hrec]
    simp only
    rw [hr]
  · rw [hself]
    refine ⟨?_, hbound, fun c hc => ?_, fun c hc => ?_⟩
    · rw [hrec]
      have := hd.isDir
      rw [h.regrown.record]
      exact this
    · rw [hcount] at hc
      refine ⟨lt_maxBlocks (by omega), ?_⟩
      rw [hblock c (by omega)]
      by_cases he : c = nb
      · rw [if_pos he]
        exact hb
      · rw [if_neg he]
        exact (hd.present c (by omega)).2
    · rw [hcount] at hc
      by_cases he : c = nb
      · rw [he, hnew]
        exact ⟨_, ht⟩
      · rw [hkeep c (by omega)]
        exact hd.tiled c (by omega)
  · rw [hself, Fs.entries, hcount, List.range_succ, List.flatMap_append, List.flatMap_singleton,
      hnew, hfirst]
    have hsame : ((List.range nb).flatMap fun c =>
        blockEntries v.m.blkSize (s₂.dirBlock v i' c)) = s.entries v (s.inode v n) :=
      List.flatMap_congr fun c hc => by rw [hkeep c (List.mem_range.mp hc)]
    rw [hsame]
    exact List.perm_append_singleton _ _
  · rw [hself, hcount]
    exact Nat.le_succ _
  · intro c hc
    rw [hself, hblock c hc.le, if_neg hc.ne]
  · intro c hc
    rw [hself]
    exact .inl (hkeep c hc)

theorem appendBlock_spec (ftype : ℕ) (hwf : WellFormed v s) (hn : s.Live v n)
    (hd : DirOk v s (s.inode v n)) (hlen : name.length ≤ 255) (hx : x ≠ 0) (hx32 : x < 2 ^ 32) :
    (∃ s', appendBlock v.m n (s.inode v n) name x ftype s = (some (), s') ∧
      Inserted v n name x ftype s s') ∨
    (¬ Appendable v s (s.inode v n) ∧ ∃ s',
      appendBlock v.m n (s.inode v n) name x ftype s = (none, s') ∧ Outside v ∅ s s' ∧
      SameCache s s' ∧ GivenBack v s s') := by
  have hw : Writing v s n (s.inode v n) := hwf.writing hn hd.hasTree s.blkbuf
  obtain ⟨b, s₁, hrun, ha, hcan⟩ := allocBlock_spec hwf.toMetaInv
  rw [appendBlock, bind_of_some hrun]
  set data := firstRecord v.m name x ftype
  set nb := dirBlocks v.m (s.inode v n)
  by_cases hb : b = 0
  · -- no free block
    subst hb
    rw [if_pos rfl]
    refine .inr ⟨fun hc => hcan.mpr hc.2.1 rfl, s₁, rfl, ?_,
      ⟨ha.step.dcache, ha.step.dcacheNext⟩, .none hrun⟩
    exact outside_of_frame hwf ha.step.inv ha.used_mono ha.inoBit
      (fun y _ _ hm => ha.step.data y hm) ha.step.now
  obtain ⟨hblt, hfree, hset⟩ := ha.fresh hb
  have hbm : ¬ v.IsMeta b := hw.not_meta hblt hfree
  rw [if_neg hb, editBlk, modify_bind_run, attempt_bind_run,
    writeBlk_run (v := v) (by exact ha.step.inv.healthy) hblt]
  have hst : ({ s₁ with blkbuf := data, disk := update s₁.disk b data } : Fs) =
    s₁.withBlock b data := rfl
  simp only [hst]
  -- the rest, when the block has been entered
  have hend : ∀ i₁ s₂, enterBlock v.m (s.inode v n) nb b (s₁.withBlock b data) = (some i₁, s₂) →
      Entered v n s (s.inode v n) nb b data s₂ i₁ → nb < 12 + perBlk v.m →
      ∃ s', (enterBlock v.m (s.inode v n) nb b >>= fun i =>
        countBlocks v.m { i with size := i.size + BitVec.ofNat 32 v.m.blkSize } >>= fun blocks =>
        gets Fs.now >>= fun now => writeInode v.m n { i with
          size := i.size + BitVec.ofNat 32 v.m.blkSize
          blocks := BitVec.ofNat 32 blocks, mtime := BitVec.ofNat 32 now })
        (s₁.withBlock b data) = (some (), s') ∧
        Inserted v n name x ftype s s' := by
    intro i₁ s₂ henter hent hnb
    rw [bind_of_some henter]
    obtain ⟨c, ibuf, hcount⟩ := countBlocks_run hent.regrown.inv.trees.healthy v.m
      { i₁ with size := i₁.size + BitVec.ofNat 32 v.m.blkSize }
    have hi : MetaInv v { s₂ with indbuf := ibuf } :=
      hent.regrown.inv.trees.toMetaInv.of_disk rfl rfl
    rw [bind_of_some hcount, gets_bind_run, writeInode_run hi hn.1]
    refine ⟨_, rfl, Entered.inserted (i := i₁) hw hd hnb hlen hx hx32 ?_ hb rfl rfl⟩
    have hbufs := (Grown.of_buffers hent.regrown.inv s₂.blkbuf ibuf).regrown
    exact ⟨hent.regrown.trans hbufs, hent.block, hent.old, hent.new⟩
  by_cases hnb : nb < 12 + perBlk v.m
  · by_cases hold : nb < 12 ∨ (s.inode v n).ptr 12 ≠ 0
    · obtain ⟨i₁, s₂, henter, hent⟩ := enterBlock_old hw ha hb hnb hold data
      exact .inl (hend i₁ s₂ henter hent hnb)
    · obtain ⟨h12, h0⟩ := not_or.mp hold
      rcases enterBlock_new hw ha hb hnb (not_lt.mp h12) (not_not.mp h0) data with
        ⟨i₁, s₂, henter, hent⟩ | ⟨hno, s₂, s₃, hrun₂, ha₂, hrun₃, hf, henter⟩
      · exact .inl (hend i₁ s₂ henter hent hnb)
      · obtain ⟨hout, hcache⟩ := outside_of_freed hwf ha hb ha₂ hf
        refine .inr ⟨fun hc => hno ?_, s₃, bind_of_none henter, hout, hcache,
          .freed hrun hb (.inr hrun₂) hrun₃⟩
        have hc := hc.2.2 (not_lt.mp h12) (not_not.mp h0)
        rw [hrun] at hc
        exact hc.congr (sameMeta_withBlock hbm _) rfl
  · -- behind the last table
    have hi := (sameMeta_withBlock (s := s₁) hbm data).inv ha.step.inv
    obtain ⟨s₃, hrun₃, hf⟩ := freeBlock_spec hi hb hblt
    obtain ⟨hout, hcache⟩ := outside_of_freed hwf ha hb (BlockAlloced.none hi _) hf
    refine .inr ⟨fun hc => hnb hc.1, s₃, bind_of_none ?_, hout, hcache,
      .freed hrun hb (.inl rfl) hrun₃⟩
    rw [enterBlock, if_neg (by omega), if_neg hnb, bind_of_some (dropBlock_run hrun₃)]
    rfl

/-! ## The call -/

def HasSlot (v : Volume) (s : Fs) (i : Inode) (name : Name) : Prop :=
  ∃ b o l₁ l₂, RecordAt v s i b o l₁ l₂ ∧
    isFreeFor (neededLen name) (s.dirBlock v i b) o = true

theorem Edited.inserted {o : ℕ} {l₁ l₂ : List ℕ} (hd : DirOk v s (s.inode v n))
    (hrec : RecordAt v s (s.inode v n) b o l₁ l₂)
    (hfree : isFreeFor (neededLen name) (s.dirBlock v (s.inode v n) b) o = true)
    (hlen : name.length ≤ 255) (hx : x ≠ 0) (hx32 : x < 2 ^ 32)
    (h : Edited v n b (useSlot (s.dirBlock v (s.inode v n) b) o name x ftype) s s') :
    Inserted v n name x ftype s s' := by
  have hfit := hfree
  rw [isFreeFor, decide_eq_true_iff] at hfit
  obtain ⟨ht, hperm⟩ := hrec.tiled.useSlot_perm ftype (blkSize_lt v).2 hfit.1 hfit.2 hlen
    hx hx32
  have hrecord := h.record
  refine ⟨h.outside, h.cache, h.live, ?_, h.dir hd ht, ?_, ?_, fun c hc => ?_,
    fun c hc => ?_⟩
  · rw [hrecord]
  · rw [hrecord]
    exact h.entries_cons hd hrec.lt hperm
  · rw [hrecord]
  · rw [hrecord]
    exact h.block _ (slotOf_valid (hd.present c hc).1).1
  · rw [hrecord, h.dirBlock c (hd.present c hc).1]
    by_cases he : c = b
    · subst he
      rw [if_pos rfl]
      exact .inr ⟨o, l₁, l₂, hrec, hfree, rfl⟩
    · rw [if_neg he]
      exact .inl rfl

theorem dirInsert_spec (ftype : ℕ) (hwf : WellFormed v s) (hn : s.Live v n)
    (hd : DirOk v s (s.inode v n)) (h0 : name ≠ []) (hlen : name.length ≤ 255) (hx : x ≠ 0)
    (hx32 : x < 2 ^ 32) :
    (∃ s', dirInsert v.m n name x ftype s = (some (), s') ∧ Inserted v n name x ftype s s') ∨
    (¬ HasSlot v s (s.inode v n) name ∧ ¬ Appendable v s (s.inode v n) ∧
      ∃ s', dirInsert v.m n name x ftype s = (none, s') ∧ Outside v ∅ s s' ∧ SameCache s s' ∧
        ∃ buf ibuf, GivenBack v { s with blkbuf := buf, indbuf := ibuf } s') := by
  have hguard : ¬ (name.length = 0 ∨ 255 < name.length ∨ x = 0) := by
    rintro (h | h | h)
    · exact h0 (List.length_eq_zero_iff.mp h)
    · omega
    · exact hx h
  rw [dirInsert, if_neg hguard, bind_of_some (readInode_run hwf.toMetaInv hn.1),
    if_neg (not_not.mpr hd.isDir)]
  obtain ⟨r, buf, ibuf, hrun, hs⟩ := dirScan_spec hwf.healthy (hwf.inRange hn hd.hasTree) hd true
    false (isFreeFor (neededLen name)) (s.disk (v.recBlock n))
  rw [bind_of_some hrun]
  rcases hs with ⟨rfl, hnone⟩ | ⟨b, o, l₁, l₂, rfl, rfl, hrec, htest⟩
  · -- no free record: what follows does not depend on the buffers
    set t : Fs := { s with blkbuf := buf, indbuf := ibuf } with ht
    have hslot : ¬ HasSlot v s (s.inode v n) name := by
      rintro ⟨b, o, l₁, l₂, hrec, hfree⟩
      have := hnone b (Nat.zero_le b) hrec.lt o (by rw [hrec.tiled.offsets_eq]; simp)
      rw [hfree] at this
      cases this
    have hdt : DirOk v t (t.inode v n) := ⟨hd.isDir, hd.size_le, hd.present, hd.tiled⟩
    rcases appendBlock_spec ftype (hwf.bufs buf ibuf) hn hdt hlen hx hx32 with
      ⟨s', hend, hins⟩ | ⟨hno, s', hend, hout, hcache, hback⟩
    · refine .inl ⟨s', hend, ?_⟩
      have hout := ((Outside.bufs hwf buf ibuf).mono (Set.empty_subset {n})).trans hins.outside
      exact ⟨hout, ⟨hins.cache.dcache, hins.cache.dcacheNext⟩, hins.live, hins.record, hins.dir,
        hins.entries, hins.grown, hins.block,
        fun c hc => (hins.place c hc).imp id fun ⟨o, l₁, l₂, hrec, hp⟩ =>
          ⟨o, l₁, l₂, ⟨hrec.lt, hrec.tiled⟩, hp⟩⟩
    · refine .inr ⟨hslot, fun hc => hno ⟨hc.1, hc.2.1, fun h12 h0 => ?_⟩, s', hend,
        (Outside.bufs hwf buf ibuf).trans hout, ⟨hcache.dcache, hcache.dcacheNext⟩, buf, ibuf,
        hback⟩
      obtain ⟨b, s₁, hal, -, hcan⟩ := allocBlock_spec hwf.toMetaInv
      have hb : b ≠ 0 := hcan.mpr hc.2.1
      have hal' := allocBlock_bufs (m := v.m) (s := s) (by rw [hal]) hb buf ibuf
      show CanAllocBlock v (allocBlock v.m { s with blkbuf := buf, indbuf := ibuf }).2
      rw [hal']
      exact hc.2.2 h12 h0
  · obtain ⟨hmax, hb0⟩ := hd.present b hrec.lt
    have hblt := hwf.inRange hn hd.hasTree _ (slotOf_valid hmax).1 hb0
    refine .inl ?_
    simp only [editBlk]
    rw [modify_bind_run, writeBlk_run (v := v) (by exact hwf.healthy) hblt]
    refine ⟨_, rfl, Edited.inserted hd hrec htest hlen hx hx32 ?_⟩
    exact hwf.editDir hn hd hrec.lt ⟨rfl, rfl, rfl, rfl⟩ rfl

end

end BananaOS.Ext2
