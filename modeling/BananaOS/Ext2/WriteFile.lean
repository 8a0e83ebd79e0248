import BananaOS.Ext2.Grow

/-!
# Writing a file

`ext2_write_file` looks up each block of the range, filling in what is missing of the tree, and
overwrites the part of the block that lies in the range.  The lookup is proved function by function
in the order of the code: every table read, created or entered on the way is a step of `Grown`, and
what it leaves in `ext2_indbuf` is the table the next function works on.
-/

namespace BananaOS.Ext2

open Function Bytes FailState BlockTree

variable {v : Volume} {s s₁ s' : Fs} {ino : ℕ} {i i' : Inode}

/-! ## Entering a block -/

variable {b k pos offset endOff n size : ℕ} {r : Fin 14} {p q : Slot (Fin 14)} {data : Bytes}

theorem blocksCount_lt (v : Volume) (hb : b < v.m.sBlocksCount) : b < 2 ^ 32 := by
  have hfit := v.blocks_fit
  rcases v.blkSize_cases with h | h | h <;> rw [h] at hfit <;> omega

theorem allocOrFail_spec (hi : MetaInv v s)
    (h : allocOrFail v.m s = (some b, s')) : BlockAlloced v s b s' ∧ b ≠ 0 := by
  obtain ⟨b', s₁, hrun, hb, -⟩ := allocBlock_spec hi
  unfold allocOrFail at h
  rw [bind_of_some hrun] at h
  by_cases h0 : b' = 0
  · rw [if_pos h0] at h
    cases h
  · rw [if_neg h0] at h
    cases h
    exact ⟨hb, h0⟩

theorem ptr_setPtr (k k' : Fin 15) (b : ℕ) :
    (i.setPtr k b).ptr k' = (update i.block k (BitVec.ofNat 32 b) k').toNat := rfl

theorem roots_setPtr (hb : b < 2 ^ 32) :
    (i.setPtr (r.castLE (by decide)) b).roots = update i.roots r b := by
  funext r'
  show (i.setPtr _ b).ptr _ = _
  rw [ptr_setPtr]
  by_cases he : r' = r
  · subst he
    rw [update_self, update_self, BitVec.toNat_ofNat, Nat.mod_eq_of_lt hb]
  · have hne : r'.castLE (by decide : 14 ≤ 15) ≠ r.castLE (by decide) :=
      fun h => he (Fin.castLE_injective _ h)
    rw [update_of_ne hne, update_of_ne he]
    rfl

theorem castLE_ofNat (h : b < 12) : (Fin.ofNat 14 b).castLE (by decide) = Fin.ofNat 15 b := by
  apply Fin.ext
  simp only [Fin.val_castLE, Fin.val_ofNat]
  omega

variable (s') in
theorem Writing.put_root (hw : Writing v s ino i) (ha : BlockAlloced v s b s₁)
    (hb : b ≠ 0) (h0 : 0 < (shape v.m).level r → s.block i (.root r) = 0)
    (hvars : SameVars s₁ s') (hD : ∀ x, x ≠ b → s'.disk x = s₁.disk x)
    (hnew : 0 < (shape v.m).level r → EmptyTable (shape v.m) s'.disk b) :
    (Regrown v ino s i s' (i.setPtr (r.castLE (by decide)) b) ∧ SameData v s i s') ∧
      ∀ p : Slot (Fin 14), p.Valid (shape v.m) →
        s'.block (i.setPtr (r.castLE (by decide)) b) p =
          if p = .root r then b else s.block i p := by
  have hroots := roots_setPtr (i := i) (r := r) (blocksCount_lt v (ha.fresh hb).1)
  have hat : ∀ p : Slot (Fin 14), p.Valid (shape v.m) →
      s'.block (i.setPtr (r.castLE (by decide)) b) p =
        if p = .root r then b else s.block i p := by
    unfold Fs.block
    rw [hroots]
    refine blockAt_attach_root h0 hb (fun p hp hp0 => ?_) hnew
    exact (hD _ (hw.ne_alloced ha hb hp)).trans (hw.disk_alloced ha hp hp0)
  exact ⟨hw.put ha hb hvars (fun x hx _ => hD x hx) rfl hat, hat⟩

variable (s') in
theorem Writing.put_entry (hw : Writing v s ino i) (ha : BlockAlloced v s b s₁)
    (hb : b ≠ 0) (hq : (Slot.entry p k).Valid (shape v.m))
    (hp0 : s.block i p ≠ 0)
    (h0 : 0 < (Slot.entry p k).level (shape v.m) → s.block i (.entry p k) = 0)
    (hvars : SameVars s₁ s')
    (htab : s'.disk (s.block i p) = wr32 (s.disk (s.block i p)) (k * 4) b)
    (hD : ∀ x, x ≠ b → x ≠ s.block i p → s'.disk x = s₁.disk x)
    (hnew : 0 < (Slot.entry p k).level (shape v.m) → EmptyTable (shape v.m) s'.disk b) :
    (Regrown v ino s i s' i ∧ SameData v s i s') ∧
      ∀ x : Slot (Fin 14), x.Valid (shape v.m) →
        s'.block i x = if x = .entry p k then b else s.block i x := by
  have hat : ∀ x : Slot (Fin 14), x.Valid (shape v.m) →
      s'.block i x = if x = .entry p k then b else s.block i x := by
    refine blockAt_attach_entry hp0 h0 hb (blocksCount_lt v (ha.fresh hb).1) htab
      (fun x hx hx0 hne => ?_) hnew
    exact (hD _ (hw.ne_alloced ha hb hx) fun he => hne (hw.inj hx hq.1 hx0 he)).trans
      (hw.disk_alloced ha hx hx0)
  exact ⟨hw.put ha hb hvars (fun x hx hn => hD x hx (hn p hq.1 hq.2.1 hp0).symm) rfl hat, hat⟩

structure Found (v : Volume) (ino : ℕ) (s : Fs) (i : Inode) (q : Slot (Fin 14)) (b : ℕ) (s' : Fs)
    (i' : Inode) : Prop where
  grown : Grown v ino s i s' i'
  data : SameData v s i s'
  block : s'.block i' q = b
  ne_zero : b ≠ 0

theorem Found.of_put (h : (Regrown v ino s i s' i' ∧ SameData v s i s') ∧
      ∀ p : Slot (Fin 14), p.Valid (shape v.m) →
        s'.block i' p = if p = q then b else s.block i p)
    (hq : q.Valid (shape v.m)) (h0 : s.block i q = 0) (hb : b ≠ 0) :
    Found v ino s i q b s' i' := by
  obtain ⟨⟨hg, hd⟩, hat⟩ := h
  refine ⟨.of_regrown hg fun p hp hp0 => ?_, hd, (hat q hq).trans (if_pos rfl), hb⟩
  have hne : p ≠ q := by
    rintro rfl
    exact hp0 h0
  rw [hat p hp, if_neg hne]

variable (s') in
theorem Writing.attach_root (hw : Writing v s ino i) (ha : BlockAlloced v s b s₁)
    (hb : b ≠ 0) (h0 : s.block i (.root r) = 0) (hvars : SameVars s₁ s')
    (hD : ∀ x, x ≠ b → s'.disk x = s₁.disk x)
    (hnew : 0 < (shape v.m).level r → EmptyTable (shape v.m) s'.disk b) :
    Found v ino s i (.root r) b s' (i.setPtr (r.castLE (by decide)) b) :=
  .of_put (hw.put_root s' ha hb (fun _ => h0) hvars hD hnew) trivial h0 hb

variable (s') in
theorem Writing.attach_entry (hw : Writing v s ino i) (ha : BlockAlloced v s b s₁)
    (hb : b ≠ 0) (hq : (Slot.entry p k).Valid (shape v.m))
    (hp0 : s.block i p ≠ 0) (h0 : s.block i (.entry p k) = 0) (hvars : SameVars s₁ s')
    (htab : s'.disk (s.block i p) = wr32 (s.disk (s.block i p)) (k * 4) b)
    (hD : ∀ x, x ≠ b → x ≠ s.block i p → s'.disk x = s₁.disk x)
    (hnew : 0 < (Slot.entry p k).level (shape v.m) → EmptyTable (shape v.m) s'.disk b) :
    Found v ino s i (.entry p k) b s' i :=
  .of_put (hw.put_entry s' ha hb hq hp0 (fun _ => h0) hvars htab hD hnew) hq h0 hb

/-! ## The lookup -/

theorem Found.trans {q' : Slot (Fin 14)} {b' : ℕ} {s'' : Fs} {i'' : Inode}
    (h : Found v ino s i q b s' i') (h' : Found v ino s' i' q' b' s'' i'') :
    Found v ino s i q' b' s'' i'' :=
  ⟨h.grown.trans h'.grown, h.data.trans h.grown h'.data, h'.block, h'.ne_zero⟩

theorem Found.block_ne_zero (h : Found v ino s i q b s' i') : s'.block i' q ≠ 0 := by
  rw [h.block]
  exact h.ne_zero

theorem Found.of_buffer (hw : Writing v s ino i) (h0 : s.block i q ≠ 0)
    (buf : Bytes) : Found v ino s i q (s.block i q) { s with indbuf := buf } i :=
  ⟨Grown.of_buffers hw s.blkbuf buf, fun _ _ _ _ => rfl, rfl, h0⟩

theorem newTable_run (hh : ∀ b, s.fault b = none) (hb : b < v.m.sBlocksCount) : newTable v.m b s =
      (some (), { s with indbuf := zero, disk := update s.disk b zero }) := by
  unfold newTable editInd
  rw [modify_bind_run]
  refine writeInd_run (v := v) ?_ hb
  exact hh

theorem emptyTable_update (D : ℕ → Bytes) (b : ℕ) :
    EmptyTable (shape v.m) (update D b zero) b := by
  intro k _
  rw [update_self]
  exact rd32_zero _

theorem rootTable_spec (hw : Writing v s ino i) {t : ℕ}
    (h : rootTable v.m i (r.castLE (by decide)) s = (some (t, i'), s')) :
    Found v ino s i (.root r) t s' i' ∧ s'.indbuf = s'.disk t := by
  unfold rootTable at h
  by_cases h0 : i.ptr (r.castLE (by decide)) = 0
  · rw [if_pos h0] at h
    obtain ⟨b, s₁, hrun, h⟩ := of_bind_eq_some h
    obtain ⟨ha, hb⟩ := allocOrFail_spec hw.trees.toMetaInv hrun
    rw [bind_of_some (newTable_run ha.step.inv.healthy (ha.fresh hb).1)] at h
    cases h
    refine ⟨hw.attach_root { s₁ with
      indbuf := zero, disk := update s₁.disk t zero } ha hb (r := r) h0 ⟨rfl, rfl, rfl, rfl⟩
      (fun x hx => update_of_ne hx _ _) fun _ => emptyTable_update _ _, ?_⟩
    exact (update_self t zero s₁.disk).symm
  · have hlt : i.ptr (r.castLE (by decide)) < v.m.sBlocksCount := hw.inRange (.root r) trivial h0
    rw [if_neg h0, bind_of_some (readInd_run hw.trees.healthy hlt)] at h
    cases h
    exact ⟨Found.of_buffer hw (q := .root r) h0 _, rfl⟩

theorem rd32_indbuf (hp0 : s.block i p ≠ 0) (hbuf : s.indbuf = s.disk (s.block i p)) (k : ℕ) :
    rd32 s.indbuf (k * 4) = s.block i (.entry p k) := by
  rw [hbuf]
  exact (Fs.block_entry_of_ne hp0).symm

theorem innerTable_spec (hw : Writing v s ino i)
    (hq : (Slot.entry p k).Valid (shape v.m)) (hp0 : s.block i p ≠ 0)
    (hbuf : s.indbuf = s.disk (s.block i p)) {t : ℕ}
    (h : innerTable v.m (s.block i p) k s = (some t, s')) :
    Found v ino s i (.entry p k) t s' i ∧ s'.indbuf = s'.disk t := by
  rw [innerTable, gets_bind_run, rd32_indbuf hp0 hbuf] at h
  by_cases h0 : s.block i (.entry p k) = 0
  · rw [if_pos h0] at h
    obtain ⟨b, s₁, hrun, h⟩ := of_bind_eq_some h
    obtain ⟨ha, hb⟩ := allocOrFail_spec hw.trees.toMetaInv hrun
    have hne := hw.ne_alloced ha hb hq.1
    -- the entry goes to the table first, then the new table is cleared
    unfold editInd at h
    rw [modify_bind_run, bind_of_some (writeInd_run (v := v) (by exact ha.step.inv.healthy)
      (hw.ok hq.1 hp0).1), bind_of_some (newTable_run (v := v) (by exact ha.step.inv.healthy)
      (ha.fresh hb).1)] at h
    cases h
    refine ⟨hw.attach_entry _ ha hb hq hp0 h0 ⟨rfl, rfl, rfl, rfl⟩ ?_
      (fun x hx hxp => (update_of_ne hx _ _).trans (update_of_ne hxp _ _))
      fun _ => emptyTable_update _ _, (update_self t zero (update s₁.disk (s.block i p)
        (wr32 s₁.indbuf (k * 4) t))).symm⟩
    show update (update s₁.disk _ _) t zero (s.block i p) = _
    rw [update_of_ne hne, update_self, ha.step.indbuf, hbuf]
  · rw [if_neg h0, bind_of_some (readInd_run hw.trees.healthy (hw.inRange _ hq h0))] at h
    cases h
    exact ⟨Found.of_buffer hw h0 _, rfl⟩

theorem tableEntry_spec (hw : Writing v s ino i)
    (hq : (Slot.entry p k).Valid (shape v.m)) (hl : (Slot.entry p k).level (shape v.m) = 0)
    (hp0 : s.block i p ≠ 0) (hbuf : s.indbuf = s.disk (s.block i p))
    (h : tableEntry v.m (s.block i p) k s = (some b, s')) :
    Found v ino s i (.entry p k) b s' i := by
  rw [tableEntry, gets_bind_run, rd32_indbuf hp0 hbuf] at h
  by_cases h0 : s.block i (.entry p k) = 0
  · rw [if_pos h0] at h
    obtain ⟨b', s₁, hrun, h⟩ := of_bind_eq_some h
    obtain ⟨ha, hb⟩ := allocOrFail_spec hw.trees.toMetaInv hrun
    unfold editInd at h
    rw [modify_bind_run, bind_of_some (writeInd_run (v := v) (by exact ha.step.inv.healthy)
      (hw.ok hq.1 hp0).1)] at h
    cases h
    refine hw.attach_entry _ ha hb hq hp0 h0 ⟨rfl, rfl, rfl, rfl⟩ ?_
      (fun x _ hxp => update_of_ne hxp _ _) fun hc => absurd hc (by omega)
    show update s₁.disk _ _ (s.block i p) = _
    rw [update_self, ha.step.indbuf, hbuf]
  · rw [if_neg h0] at h
    cases h
    exact Found.of_buffer hw h0 s.indbuf

theorem writeBlockFor_spec (hw : Writing v s ino i) {blk : ℕ}
    (h : writeBlockFor v.m i b s = (some (blk, i'), s')) :
    b < maxBlocks v.m ∧ Found v ino s i (slotOf v.m b) blk s' i' := by
  unfold writeBlockFor at h
  by_cases h1 : b < 12
  · have hm : b < maxBlocks v.m := by unfold maxBlocks; omega
    rw [if_pos h1, ← castLE_ofNat h1] at h
    rw [slotOf_direct h1]
    refine ⟨hm, ?_⟩
    by_cases h0 : i.ptr ((Fin.ofNat 14 b).castLE (by decide)) = 0
    · rw [if_pos h0] at h
      obtain ⟨b', s₁, hrun, h⟩ := of_bind_eq_some h
      obtain ⟨ha, hb⟩ := allocOrFail_spec hw.trees.toMetaInv hrun
      cases h
      -- a data block is not cleared
      have hl : (shape v.m).level (Fin.ofNat 14 b) = 0 := level_direct (v := v) h1
      exact hw.attach_root s' ha hb (r := Fin.ofNat 14 b) h0 ⟨rfl, rfl, rfl, rfl⟩
        (fun _ _ => rfl) fun hc => absurd hc (by omega)
    · rw [if_neg h0] at h
      cases h
      exact Found.of_buffer hw (q := .root (Fin.ofNat 14 b)) h0 s.indbuf
  · rw [if_neg h1] at h
    by_cases h2 : b - 12 < perBlk v.m
    · have hm : b < maxBlocks v.m := by unfold maxBlocks; omega
      rw [if_pos (by omega)] at h
      obtain ⟨⟨t, i₁⟩, s₁, hroot, h⟩ := of_bind_eq_some h
      obtain ⟨hf, hbuf⟩ := rootTable_spec (r := 12) hw hroot
      obtain ⟨blk', s₂, hent, h⟩ := of_bind_eq_some h
      cases h
      rw [slotOf_single h1 h2]
      rw [← hf.block] at hent hbuf
      exact ⟨hm, hf.trans
        (tableEntry_spec hf.grown.inv (single_valid h2) rfl hf.block_ne_zero hbuf hent)⟩
    · rw [if_neg (by omega)] at h
      simp only at h
      by_cases h3 : perBlk v.m ≤ (b - 12 - perBlk v.m) / perBlk v.m
      · rw [if_pos h3] at h
        cases h
      · rw [if_neg h3] at h
        have hm : b < maxBlocks v.m := by
          have := (Nat.div_lt_iff_lt_mul (perBlk_pos v)).mp (not_le.mp h3)
          unfold maxBlocks
          omega
        obtain ⟨⟨t, i₁⟩, s₁, hroot, h⟩ := of_bind_eq_some h
        obtain ⟨hf, hbuf⟩ := rootTable_spec (r := 13) hw hroot
        obtain ⟨t₂, s₂, hinner, h⟩ := of_bind_eq_some h
        obtain ⟨blk', s₃, hent, h⟩ := of_bind_eq_some h
        cases h
        rw [slotOf_double h1 h2]
        rw [← hf.block] at hinner hbuf
        obtain ⟨hf₂, hbuf₂⟩ := innerTable_spec hf.grown.inv (inner_valid (not_le.mp h3))
          hf.block_ne_zero hbuf hinner
        rw [← hf₂.block] at hent hbuf₂
        exact ⟨hm, (hf.trans hf₂).trans (tableEntry_spec hf₂.grown.inv (double_valid (not_le.mp h3)
          (Nat.mod_lt _ (perBlk_pos v))) rfl hf₂.block_ne_zero hbuf₂ hent)⟩

/-! ## What the file holds -/

theorem view_of_grown (hg : Grown v ino s i s' i') {c : Byte}
    (hd : pos / v.m.blkSize < maxBlocks v.m → s.block i (slotOf v.m (pos / v.m.blkSize)) ≠ 0 →
      s'.disk (s.block i (slotOf v.m (pos / v.m.blkSize))) (pos % v.m.blkSize) =
        s.disk (s.block i (slotOf v.m (pos / v.m.blkSize))) (pos % v.m.blkSize))
    (h : s.view v i pos = some c) : s'.view v i' pos = some c := by
  unfold Fs.view at h ⊢
  by_cases hc : pos / v.m.blkSize < maxBlocks v.m ∧
      s.block i (slotOf v.m (pos / v.m.blkSize)) ≠ 0
  · have hk := hg.keep _ (slotOf_valid hc.1).1 hc.2
    rw [if_pos hc] at h
    rw [hk, if_pos hc, hd hc.1 hc.2]
    exact h
  · rw [if_neg hc] at h
    cases h

theorem writeBlockFor_view {blk : ℕ} (hf : Found v ino s i (slotOf v.m b) blk s' i')
    {c : Byte} (h : s.view v i pos = some c) : s'.view v i' pos = some c :=
  view_of_grown hf.grown (fun hm h0 => by
    rw [hf.data _ (slotOf_valid hm).1 (slotOf_valid hm).2 h0]) h

theorem sub32_of_le {a : ℕ} (h : b ≤ a) (ha : a < 2 ^ 32) : sub32 a b = a - b := by
  unfold sub32
  omega

theorem chunk_byte (v : Volume) {p : Bytes} {j : ℕ} (h1 : offset < endOff)
    (h2 : endOff < 2 ^ 32) (hfirst : offset / v.m.blkSize ≤ b)
    (hlast : b ≤ (endOff - 1) / v.m.blkSize) (hj : j < v.m.blkSize) :
    copyIn p (if b = offset / v.m.blkSize then offset % v.m.blkSize else 0)
        (sub32 (if b = sub32 endOff 1 / v.m.blkSize then sub32 endOff 1 % v.m.blkSize + 1
          else v.m.blkSize) (if b = offset / v.m.blkSize then offset % v.m.blkSize else 0))
        (drop data (sub32 (b * v.m.blkSize +
          (if b = offset / v.m.blkSize then offset % v.m.blkSize else 0)) offset)) j =
      if offset ≤ b * v.m.blkSize + j ∧ b * v.m.blkSize + j < endOff then
        data (b * v.m.blkSize + j - offset)
      else p j := by
  rw [sub32_of_le (show 1 ≤ endOff by omega) h2]
  set cs := if b = offset / v.m.blkSize then offset % v.m.blkSize else 0 with hcs
  set ce := if b = (endOff - 1) / v.m.blkSize then (endOff - 1) % v.m.blkSize + 1
    else v.m.blkSize with hce
  -- where the chunk starts and ends, in the file
  have hfacts : cs < ce ∧ ce ≤ v.m.blkSize ∧ v.m.blkSize ≤ 4096 ∧ offset ≤ b * v.m.blkSize + cs ∧
      (b * v.m.blkSize + cs = offset ∨ cs = 0) ∧ b * v.m.blkSize + ce ≤ endOff ∧
      (b * v.m.blkSize + ce = endOff ∨ ce = v.m.blkSize) := by
    rw [hcs, hce]
    rcases v.blkSize_cases with h | h | h <;> rw [h] at hfirst hlast ⊢ <;> split <;> split <;> omega
  obtain ⟨f1, f2, f3, f4, f5, f6, f7⟩ := hfacts
  rw [sub32_of_le (show cs ≤ ce by omega) (by omega), sub32_of_le f4 (by omega)]
  by_cases hin : cs ≤ j ∧ j < ce
  · rw [copyIn_in hin.1 (by omega), if_pos ⟨by omega, by omega⟩]
    exact congrArg data (by omega)
  · rw [copyIn_out (by omega), if_neg (by omega)]

theorem writeChunk_run (hh : ∀ b, s.fault b = none) (data : Bytes) {blk : ℕ}
    (h1 : offset < endOff) (h2 : endOff < 2 ^ 32) (hfirst : offset / v.m.blkSize ≤ b)
    (hlast : b ≤ (endOff - 1) / v.m.blkSize) (hlt : blk < v.m.sBlocksCount) :
    ∃ chunk : Bytes,
      writeChunk v.m data offset endOff b blk s = (some (), s.withBlock blk chunk) ∧
      ∀ j < v.m.blkSize, chunk j =
        if offset ≤ b * v.m.blkSize + j ∧ b * v.m.blkSize + j < endOff then
          data (b * v.m.blkSize + j - offset)
        else s.disk blk j := by
  refine ⟨_, ?_, fun j hj => chunk_byte v h1 h2 hfirst hlast hj⟩
  unfold writeChunk editBlk
  rw [bind_of_some (readBlk_run hh hlt)]
  simp only
  rw [modify_bind_run]
  refine writeBlk_run (v := v) ?_ hlt
  exact hh

theorem writeChunk_spec (hw : Writing v s ino i)
    (h1 : offset < endOff) (h2 : endOff < 2 ^ 32) (hfirst : offset / v.m.blkSize ≤ b)
    (hlast : b ≤ (endOff - 1) / v.m.blkSize) (hm : b < maxBlocks v.m)
    (h0 : s.block i (slotOf v.m b) ≠ 0)
    (h : writeChunk v.m data offset endOff b (s.block i (slotOf v.m b)) s = (some (), s')) :
    Grown v ino s i s' i ∧ ∀ pos, s'.view v i pos =
      if pos / v.m.blkSize = b ∧ offset ≤ pos ∧ pos < endOff then some (data (pos - offset))
      else s.view v i pos := by
  obtain ⟨hv, hl⟩ := slotOf_valid (v := v) hm
  obtain ⟨chunk, hrun, hchunk⟩ := writeChunk_run hw.trees.healthy data h1 h2 hfirst hlast
    (hw.inRange _ hv h0)
  obtain rfl : s.withBlock (s.block i (slotOf v.m b)) chunk = s' :=
    congrArg Prod.snd (hrun.symm.trans h)
  have hself : (s.withBlock (s.block i (slotOf v.m b)) chunk).disk (s.block i (slotOf v.m b)) =
      chunk := update_self _ _ _
  have hout : ∀ x, x ≠ s.block i (slotOf v.m b) →
      (s.withBlock (s.block i (slotOf v.m b)) chunk).disk x = s.disk x :=
    fun x hx => update_of_ne hx _ _
  obtain ⟨hg, hblocks⟩ := hw.write_data (s.withBlock _ chunk) hv hl h0 ⟨rfl, rfl, rfl, rfl⟩ hout
  refine ⟨hg, fun pos => ?_⟩
  have hmod := Nat.mod_lt pos v.blkSize_pos
  have hpos : pos / v.m.blkSize * v.m.blkSize + pos % v.m.blkSize = pos := by
    rw [Nat.mul_comm]
    exact Nat.div_add_mod pos v.m.blkSize
  unfold Fs.view
  by_cases hb : pos / v.m.blkSize = b
  · subst hb
    have hc : pos / v.m.blkSize < maxBlocks v.m ∧
        s.block i (slotOf v.m (pos / v.m.blkSize)) ≠ 0 := ⟨hm, h0⟩
    rw [hblocks _ hv, if_pos hc, if_pos hc, hself, hchunk _ hmod, hpos]
    by_cases hr : offset ≤ pos ∧ pos < endOff
    · rw [if_pos hr, if_pos ⟨rfl, hr⟩]
    · rw [if_neg hr, if_neg fun hc => hr hc.2]
  · have hno : ¬ (pos / v.m.blkSize = b ∧ offset ≤ pos ∧ pos < endOff) := fun hc => hb hc.1
    rw [if_neg hno]
    by_cases hc : pos / v.m.blkSize < maxBlocks v.m ∧
        s.block i (slotOf v.m (pos / v.m.blkSize)) ≠ 0
    · -- another block of the file
      obtain ⟨hm', h0'⟩ := hc
      have hv' := (slotOf_valid (v := v) hm').1
      have hne : s.block i (slotOf v.m (pos / v.m.blkSize)) ≠ s.block i (slotOf v.m b) :=
        fun he => hb (slotOf_inj (hw.inj hv' hv h0' he))
      rw [hblocks _ hv', hout _ hne]
    · have hc' : ¬ (pos / v.m.blkSize < maxBlocks v.m ∧
          (s.withBlock (s.block i (slotOf v.m b)) chunk).block i
            (slotOf v.m (pos / v.m.blkSize)) ≠ 0) := by
        rintro ⟨hm', h0'⟩
        rw [hblocks _ (slotOf_valid hm').1] at h0'
        exact hc ⟨hm', h0'⟩
      rw [if_neg hc, if_neg hc']

theorem writeLoop_spec (h1 : offset < endOff) (h2 : endOff < 2 ^ 32) :
    ∀ (n b : ℕ) {s : Fs} {i : Inode}, Writing v s ino i → offset / v.m.blkSize ≤ b →
      b + n = (endOff - 1) / v.m.blkSize + 1 → ∀ {s' : Fs} {i' : Inode},
      writeLoop v.m data offset endOff n b i s = (some i', s') →
      Grown v ino s i s' i' ∧
      (∀ pos, b ≤ pos / v.m.blkSize → offset ≤ pos → pos < endOff →
        s'.view v i' pos = some (data (pos - offset))) ∧
      ∀ pos c, ¬ (b ≤ pos / v.m.blkSize ∧ offset ≤ pos ∧ pos < endOff) →
        s.view v i pos = some c → s'.view v i' pos = some c := by
  intro n
  induction n with
  | zero =>
    intro b s i hw _ hn s' i' h
    cases h
    refine ⟨Grown.refl hw, fun pos hb _ hlt => ?_, fun _ _ _ hc => hc⟩
    -- no position of the range lies behind the last block
    have : pos / v.m.blkSize ≤ (endOff - 1) / v.m.blkSize := Nat.div_le_div_right (by omega)
    omega
  | succ n ih =>
    intro b s i hw hfirst hn s' i' h
    rw [writeLoop] at h
    obtain ⟨⟨blk, i₁⟩, s₁, hlook, h⟩ := of_bind_eq_some h
    obtain ⟨hm, hf⟩ := writeBlockFor_spec hw hlook
    obtain ⟨_, s₂, hchunk, h⟩ := of_bind_eq_some h
    rw [← hf.block] at hchunk
    obtain ⟨hg₂, hview⟩ := writeChunk_spec hf.grown.inv h1 h2 hfirst (by omega) hm
      hf.block_ne_zero hchunk
    obtain ⟨hg₃, hin, hout⟩ := ih (b + 1) hg₂.inv (by omega) (by omega) h
    refine ⟨(hf.grown.trans hg₂).trans hg₃, fun pos hb ho hlt => ?_, fun pos c hno hc => ?_⟩
    · by_cases hb' : b + 1 ≤ pos / v.m.blkSize
      · exact hin pos hb' ho hlt
      · -- a byte of this block, which the later rounds keep
        refine hout pos _ (fun hc => hb' hc.1) ?_
        rw [hview pos, if_pos ⟨by omega, ho, hlt⟩]
    · refine hout pos c (fun hc' => hno ⟨by omega, hc'.2⟩) ?_
      rw [hview pos, if_neg fun hc' => hno ⟨by omega, hc'.2⟩]
      exact writeBlockFor_view hf hc

/-! ## Counting, and the record -/

theorem countEntries_run (n : ℕ) : ∀ k, ∃ c, countEntries n k s = (some c, s) := by
  induction n with
  | zero => exact fun _ => ⟨0, rfl⟩
  | succ n ih =>
    intro k
    obtain ⟨c, hc⟩ := ih (k + 1)
    rw [countEntries, gets_bind_run, bind_of_some hc]
    exact ⟨_, rfl⟩

theorem countTables_run {m : Mount} (n : ℕ) : ∀ (k : ℕ) {s : Fs}, (∀ b, s.fault b = none) →
    ∃ c buf, countTables m n k s = (some c, { s with indbuf := buf }) := by
  induction n with
  | zero => exact fun _ s _ => ⟨0, s.indbuf, rfl⟩
  | succ n ih =>
    intro k s hh
    rw [countTables, gets_bind_run]
    by_cases h0 : rd32 s.indbuf (k * 4) = 0
    · rw [if_pos h0]
      exact ih (k + 1) hh
    · rw [if_neg h0, attempt_bind_run, readInd_healthy hh]
      simp only
      obtain ⟨c, hc⟩ := countEntries_run (s := { s with
        indbuf := s.disk (physBlock m (rd32 s.indbuf (k * 4))) }) (perBlk m) 0
      rw [bind_of_some hc]
      obtain ⟨c', buf, hc'⟩ := ih (k + 1) (s := { s with
        indbuf := s.disk (physBlock m (rd32 s.indbuf (k * 4))) }) hh
      rw [bind_of_some hc']
      exact ⟨_, buf, rfl⟩

theorem countSingle_run (hh : ∀ b, s.fault b = none) (m : Mount) (i : Inode) :
    ∃ c buf, countSingle m i s = (some c, { s with indbuf := buf }) := by
  unfold countSingle
  by_cases h0 : i.ptr 12 = 0
  · rw [if_pos h0]
    exact ⟨0, s.indbuf, rfl⟩
  · rw [if_neg h0, attempt_bind_run, readInd_healthy hh]
    simp only
    obtain ⟨c, hc⟩ := countEntries_run (s := { s with
      indbuf := s.disk (physBlock m (i.ptr 12)) }) (perBlk m) 0
    rw [bind_of_some hc]
    exact ⟨_, _, rfl⟩

theorem countDouble_run (hh : ∀ b, s.fault b = none) (m : Mount) (i : Inode) :
    ∃ c buf, countDouble m i s = (some c, { s with indbuf := buf }) := by
  unfold countDouble
  by_cases h0 : i.ptr 13 = 0
  · rw [if_pos h0]
    exact ⟨0, s.indbuf, rfl⟩
  · rw [if_neg h0, attempt_bind_run, readInd_healthy hh]
    simp only
    obtain ⟨c, buf, hc⟩ := countTables_run (m := m) (perBlk m) 0 (s := { s with
      indbuf := s.disk (physBlock m (i.ptr 13)) }) hh
    rw [bind_of_some hc]
    exact ⟨_, buf, rfl⟩

theorem countBlocks_run (hh : ∀ b, s.fault b = none) (m : Mount) (i : Inode) :
    ∃ c buf, countBlocks m i s = (some c, { s with indbuf := buf }) := by
  obtain ⟨c, buf, hc⟩ := countSingle_run hh m i
  obtain ⟨c', buf', hc'⟩ := countDouble_run (s := { s with indbuf := buf }) hh m i
  unfold countBlocks
  rw [bind_of_some hc, bind_of_some hc']
  exact ⟨_, buf', rfl⟩

theorem Writing.record (hw : Writing v s ino i) (hroots : i'.roots = i.roots) :
    WellFormed v (s.withInode v ino i') := by
  have hino := hw.live.1
  -- the record in the table has the pointers of the one in memory
  have hrecs : ∀ n, v.IsIno n →
      ((s.withInode v ino i').inode v n).roots = (update (s.inode v) ino i n).roots ∧
      (((s.withInode v ino i').inode v n).HasTree →
        (update (s.inode v) ino i n).HasTree) := by
    intro n hn
    by_cases hne : n = ino
    · subst hne
      rw [inode_withInode_self, update_self]
      exact ⟨hroots, fun _ => hw.hasTree⟩
    · rw [inode_withInode_of_ne hino hn hne, update_of_ne hne]
      exact ⟨rfl, id⟩
  refine hw.trees.of_frame (hw.trees.toMetaInv.withInode hino i')
    (fun b hb hu => (used_withInode hino hb i').trans hu) ?_ (fun n hn => (hrecs n hn.1).1)
    fun b hb => withInode_disk_of_ne fun he => hb.2.1 (.inr ⟨ino, hino, he⟩)
  rintro n ⟨⟨hn, hb⟩, ht⟩
  exact ⟨⟨hn, (inoBit_withInode hino hn i').symm.trans hb⟩, (hrecs n hn).2 ht⟩

/-! ## The whole call -/

/-- What a successful write of `size` bytes of `data` at `offset` leaves behind. -/
structure Written (v : Volume) (ino offset : ℕ) (data : Bytes) (size : ℕ) (s s' : Fs) : Prop where
  wf : WellFormed v s'
  live : ∀ n, v.IsIno n → s'.inoBit v n = s.inoBit v n
  mode : (s'.inode v ino).mode = (s.inode v ino).mode
  length : (s'.inode v ino).size.toNat = max (s.inode v ino).size.toNat (offset + size)
  inside : ∀ pos, offset ≤ pos → pos < offset + size →
    s'.view v (s'.inode v ino) pos = some (data (pos - offset))
  outside : ∀ pos c, ¬ (offset ≤ pos ∧ pos < offset + size) →
    s.view v (s.inode v ino) pos = some c → s'.view v (s'.inode v ino) pos = some c
  records : ∀ n, v.IsIno n → n ≠ ino → s'.inode v n = s.inode v n
  others : ∀ n, s.Live v n → n ≠ ino → (s.inode v n).HasTree →
    ∀ pos, s'.view v (s.inode v n) pos = s.view v (s.inode v n) pos
  vars : SameVars s s'

theorem view_congr (hb : ∀ q : Slot (Fin 14), q.Valid (shape v.m) → s'.block i' q = s.block i q)
    (hd : ∀ q : Slot (Fin 14), q.Valid (shape v.m) → s.block i q ≠ 0 →
      s'.disk (s.block i q) = s.disk (s.block i q)) : s'.view v i' pos = s.view v i pos := by
  unfold Fs.view
  by_cases hm : pos / v.m.blkSize < maxBlocks v.m
  · have hv := (slotOf_valid (v := v) hm).1
    rw [hb _ hv]
    by_cases h0 : s.block i (slotOf v.m (pos / v.m.blkSize)) = 0
    · rw [if_neg fun hc => hc.2 h0, if_neg fun hc => hc.2 h0]
    · rw [hd _ hv h0]
  · rw [if_neg fun hc => hm hc.1, if_neg fun hc => hm hc.1]

theorem Grown.other_view (hw : Writing v s ino i) (hg : Grown v ino s i s' i')
    (hne : n ≠ ino) (hn : s.Live v n) (ht : (s.inode v n).HasTree) (pos : ℕ) :
    s'.view v (s.inode v n) pos = s.view v (s.inode v n) pos :=
  view_congr (fun _ hq => hg.regrown.other_block hw hne hn ht hq)
    fun _ hq h0 => hg.regrown.other_data hw hne hn ht hq h0

theorem Grown.inode (hw : Writing v s ino i) (hg : Grown v ino s i s' i')
    (hn : v.IsIno n) : s'.inode v n = s.inode v n :=
  hg.regrown.inode hw hn

theorem view_withInode (hn : v.IsIno n) {j j' : Inode} (hr : j'.roots = j.roots)
    (hok : ∀ q : Slot (Fin 14), q.Valid (shape v.m) → s.block j q ≠ 0 → s.Ok v (s.block j q))
    (i : Inode) (pos : ℕ) : (s.withInode v n i).view v j' pos = s.view v j pos := by
  have hd : ∀ q : Slot (Fin 14), q.Valid (shape v.m) → s.block j q ≠ 0 →
      (s.withInode v n i).disk (s.block j q) = s.disk (s.block j q) :=
    fun q hq h0 => withInode_disk_of_ne fun he => (hok q hq h0).2.1 (.inr ⟨n, hn, he⟩)
  refine view_congr (fun q hq => ?_) hd
  unfold Fs.block
  rw [hr]
  exact blockAt_congr (fun p hp _ h0 => hd p hp h0) q hq

theorem Grown.written (hw : Writing v s ino (s.inode v ino))
    (hg : Grown v ino s (s.inode v ino) s₁ i)
    (hin : ∀ pos, offset ≤ pos → pos < offset + size →
      s₁.view v i pos = some (data (pos - offset)))
    (hout : ∀ pos c, ¬ (offset ≤ pos ∧ pos < offset + size) →
      s.view v (s.inode v ino) pos = some c → s₁.view v i pos = some c)
    (hrec : i' = { i with
      size := i'.size, mtime := i'.mtime, ctime := i'.ctime, dtime := i'.dtime
      blocks := i'.blocks })
    (hlen : i'.size.toNat = max (s.inode v ino).size.toNat (offset + size)) :
    Written v ino offset data size s (s₁.withInode v ino i') := by
  have hino := hw.live.1
  have hw₁ := hg.inv
  have hself := inode_withInode_self (v := v) (s := s₁) ino i'
  have hroots : i'.roots = i.roots := by rw [hrec]; rfl
  have hview : ∀ pos, (s₁.withInode v ino i').view v i' pos = s₁.view v i pos :=
    view_withInode hino hroots (fun q hq h0 => hw₁.ok hq h0) i'
  refine ⟨hw₁.record hroots, fun n hn => ?_, ?_, ?_, fun pos h1 h2 => ?_,
    fun pos c hno hv => ?_, fun n hn hne => ?_, fun n hn hne ht pos => ?_, ?_⟩
  · refine Eq.trans ?_ (hg.inoBit n hn)
    unfold Fs.inoBit
    rw [withInode_disk_of_ne fun he => v.rec_not_allocMeta hino
      (he ▸ .inr ⟨_, v.inoGroup_lt hn, .inr (.inr rfl)⟩)]
  · rw [hself, hrec]
    show i.mode = _
    rw [hg.record]
  · rw [hself, hlen]
  · rw [hself, hview]
    exact hin pos h1 h2
  · rw [hself, hview]
    exact hout pos c hno hv
  · rw [inode_withInode_of_ne hino hn hne]
    exact hg.inode hw hn
  · have hsame := hg.inode hw hn.1
    have hotherOk : ∀ q : Slot (Fin 14), q.Valid (shape v.m) → s₁.block (s.inode v n) q ≠ 0 →
        s₁.Ok v (s₁.block (s.inode v n) q) := by
      rw [← hsame] at ht ⊢
      exact fun q hq h0 => hw₁.otherOk hne ⟨hn.1, (hg.inoBit n hn.1).trans hn.2⟩ ht hq h0
    rw [view_withInode hino rfl hotherOk]
    exact hg.other_view hw hne hn ht pos
  · exact hg.vars.trans ⟨rfl, rfl, rfl, rfl⟩

theorem toNat_newSize {x : BitVec 32} (hn : n < 2 ^ 32) :
    (if x.toNat < n then BitVec.ofNat 32 n else x).toNat = max x.toNat n := by
  split
  · rw [BitVec.toNat_ofNat, Nat.mod_eq_of_lt hn]
    omega
  · omega

theorem updateRecord_run (hw : Writing v s ino i) (hend : endOff < 2 ^ 32) :
    ∃ buf i', updateRecord v.m ino endOff i s =
        (some (), ({ s with indbuf := buf } : Fs).withInode v ino i') ∧
      i' = { i with
        size := i'.size, mtime := i'.mtime, ctime := i'.ctime, dtime := i'.dtime
        blocks := i'.blocks } ∧
      i'.size.toNat = max i.size.toNat endOff := by
  unfold updateRecord
  rw [gets_bind_run]
  obtain ⟨c, buf, hc⟩ := countBlocks_run hw.trees.healthy v.m { i with
    size := if i.size.toNat < endOff then BitVec.ofNat 32 endOff else i.size
    mtime := BitVec.ofNat 32 s.now
    ctime := BitVec.ofNat 32 s.now
    dtime := 0 }
  have hi : MetaInv v { s with indbuf := buf } := hw.trees.toMetaInv.of_disk rfl rfl
  refine ⟨buf, { i with
    size := if i.size.toNat < endOff then BitVec.ofNat 32 endOff else i.size
    mtime := BitVec.ofNat 32 s.now
    ctime := BitVec.ofNat 32 s.now
    dtime := 0
    blocks := BitVec.ofNat 32 c }, ?_, rfl, toNat_newSize hend⟩
  rw [bind_of_some hc]
  exact writeInode_run hi hw.live.1 _

theorem writeFile_eq (hi : MetaInv v s) (hino : v.IsIno ino) (hreg : (s.inode v ino).type = ifReg)
    (data : Bytes) (h0 : size ≠ 0) (hend : offset + size < 2 ^ 32) :
    writeFile v.m ino offset data size s =
      (writeLoop v.m data offset (offset + size)
        (lastBlock v.m (offset + size) + 1 - offset / v.m.blkSize) (offset / v.m.blkSize)
        (s.inode v ino) >>= fun i =>
          updateRecord v.m ino (offset + size) i >>= fun _ => pure size)
        { s with blkbuf := s.disk (v.recBlock ino) } := by
  have hz : ¬ (v.m.mounted = false ∨ size = 0) := by
    rw [v.mounted]
    simpa using h0
  have htype : ¬ ((s.inode v ino).type ≠ ifReg ∧ (s.inode v ino).type ≠ ifLnk) :=
    fun hc => hc.1 hreg
  unfold writeFile
  rw [if_neg hz, bind_of_some (readInode_run hi hino), if_neg htype, Nat.mod_eq_of_lt hend]

theorem writeFile_spec (hwf : WellFormed v s) (hlive : s.Live v ino)
    (hreg : (s.inode v ino).type = ifReg)
    (hend : offset + size < 2 ^ 32)
    (h : writeFile v.m ino offset data size s = (some size, s')) :
    Written v ino offset data size s s' := by
  by_cases h0 : size = 0
  · -- the driver refuses to write nothing
    rw [writeFile, if_pos (.inr h0)] at h
    cases h
  rw [writeFile_eq hwf.toMetaInv hlive.1 hreg data h0 hend] at h
  obtain ⟨i₁, s₁, hloop, hrest⟩ := of_bind_eq_some h
  obtain ⟨_, s₂, hupd, hend'⟩ := of_bind_eq_some hrest
  have hw₀ := hwf.writing hlive (.inl hreg) (s.disk (v.recBlock ino))
  have hlast : lastBlock v.m (offset + size) = (offset + size - 1) / v.m.blkSize := by
    unfold lastBlock
    rw [sub32_of_le (by omega) hend]
  have hcount : offset / v.m.blkSize ≤ (offset + size - 1) / v.m.blkSize :=
    Nat.div_le_div_right (by omega)
  obtain ⟨hg, hin, hout⟩ := writeLoop_spec (by omega) hend _ _ hw₀ (le_refl _) (by omega) hloop
  obtain ⟨buf, i₂, hrun, hrec, hlen⟩ := updateRecord_run hg.inv hend
  obtain rfl : _ = s₂ := congrArg Prod.snd (hrun.symm.trans hupd)
  obtain rfl : _ = s' := congrArg Prod.snd hend'
  have hsize : i₁.size = (s.inode v ino).size := by rw [hg.record]
  rw [hsize] at hlen
  have hwr := (hg.trans (Grown.of_buffers hg.inv s₁.blkbuf buf)).written hw₀
    (fun pos h1 h2 => hin pos (Nat.div_le_div_right h1) h1 h2)
    (fun pos c hno hv => hout pos c (fun hc => hno hc.2) hv) hrec hlen
  exact ⟨hwr.wf, hwr.live, hwr.mode, hwr.length, hwr.inside, hwr.outside, hwr.records, hwr.others,
    hwr.vars.fault, hwr.vars.dcache, hwr.vars.dcacheNext, hwr.vars.now⟩

theorem readFile_of_view (hwf : WellFormed v s) (hlive : s.Live v ino)
    (hreg : (s.inode v ino).type = ifReg) {f : ℕ → Byte}
    (hlen : offset + size ≤ (s.inode v ino).size.toNat)
    (hview : ∀ k < size, s.view v (s.inode v ino) (offset + k) = some (f k)) :
    (readFile v.m ino offset size s).1 = some ((List.range size).map f) := by
  obtain ⟨b1, b2, h⟩ := readFile_run hwf.toMetaInv hlive.1 (.inl hreg)
    (hwf.inRange hlive (.inl hreg)) offset size
  have hsplit := heldFrom_add (f := s.view v (s.inode v ino)) (g := fun p => f (p - offset)) 0
    offset size fun j hj => by rw [hview j hj, Nat.add_sub_cancel_left]
  rw [h, show min size ((s.inode v ino).size.toNat - offset) = size + 0 by omega, hsplit]
  simp only [Nat.add_sub_cancel_left, heldFrom, List.append_nil]

theorem view_of_readFile (hwf : WellFormed v s) (hlive : s.Live v ino)
    (hreg : (s.inode v ino).type = ifReg) {c : Byte}
    (h : (readFile v.m ino pos 1 s).1 = some [c]) :
    pos < (s.inode v ino).size.toNat ∧ s.view v (s.inode v ino) pos = some c := by
  obtain ⟨b1, b2, hrun⟩ := readFile_run hwf.toMetaInv hlive.1 (.inl hreg)
    (hwf.inRange hlive (.inl hreg)) pos 1
  rw [hrun] at h
  have hl := Option.some.inj h
  by_cases hpos : pos < (s.inode v ino).size.toNat
  · rw [show min 1 ((s.inode v ino).size.toNat - pos) = 1 by omega, heldFrom] at hl
    cases hv : s.view v (s.inode v ino) pos with
    | none =>
      rw [hv] at hl
      cases hl
    | some c' =>
      rw [hv] at hl
      exact ⟨hpos, congrArg some (List.cons.inj hl).1⟩
  · rw [show min 1 ((s.inode v ino).size.toNat - pos) = 0 by omega] at hl
    cases hl

/-- **Writing and reading back.**  After a successful write the range reads as the data, every other
byte that could be read reads as before, the length is the larger of the old one and the end of the
range, every other live inode has its record and its content, and the volume is well formed. -/
theorem writeFile_readFile (hwf : WellFormed v s) (hlive : s.Live v ino)
    (hreg : (s.inode v ino).type = ifReg) {offset size : ℕ} {data : Bytes}
    (hend : offset + size < 2 ^ 32)
    (h : writeFile v.m ino offset data size s = (some size, s')) :
    (readFile v.m ino offset size s').1 = some ((List.range size).map data) ∧
    (∀ pos c, ¬ (offset ≤ pos ∧ pos < offset + size) →
      (readFile v.m ino pos 1 s).1 = some [c] → (readFile v.m ino pos 1 s').1 = some [c]) ∧
    (s'.inode v ino).size.toNat = max (s.inode v ino).size.toNat (offset + size) ∧
    (∀ n, s.Live v n → n ≠ ino → s'.Live v n ∧ s'.inode v n = s.inode v n ∧
      ((s.inode v n).HasTree →
        (∀ pos, s'.view v (s'.inode v n) pos = s.view v (s.inode v n) pos) ∧
        ∀ o l, (readFile v.m n o l s').1 = (readFile v.m n o l s).1) ∧
      ∀ l, (symlinkTarget v.m n l s').1 = (symlinkTarget v.m n l s).1) ∧
    WellFormed v s' := by
  have hwr := writeFile_spec hwf hlive hreg hend h
  have hlive' : s'.Live v ino := ⟨hlive.1, (hwr.live ino hlive.1).trans hlive.2⟩
  have hreg' : (s'.inode v ino).type = ifReg := by
    unfold Inode.type at hreg ⊢
    rw [hwr.mode, hreg]
  refine ⟨?_, fun pos c hno hc => ?_, hwr.length, fun n hn hne => ?_, hwr.wf⟩
  · refine readFile_of_view hwr.wf hlive' hreg' (by rw [hwr.length]; omega) fun k hk => ?_
    rw [hwr.inside (offset + k) (by omega) (by omega), Nat.add_sub_cancel_left]
  · obtain ⟨hpos, hv⟩ := view_of_readFile hwf hlive hreg hc
    have hv' := hwr.outside pos c hno hv
    refine readFile_of_view (f := fun _ => c) hwr.wf hlive' hreg' (by rw [hwr.length]; omega)
      fun k hk => ?_
    obtain rfl : k = 0 := by omega
    exact hv'
  · have hrec := hwr.records n hn.1 hne
    have hn' : s'.Live v n := ⟨hn.1, (hwr.live n hn.1).trans hn.2⟩
    have hread : (s.inode v n).HasTree →
        ∀ o l, (readFile v.m n o l s').1 = (readFile v.m n o l s).1 := by
      intro ht
      have hr' := hwr.wf.inRange hn' (by rwa [hrec])
      rw [hrec] at hr'
      exact readFile_congr hwf.toMetaInv hwr.wf.toMetaInv hn.1 hrec (hwf.inRange hn ht) hr'
        (hwr.others n hn hne ht)
    refine ⟨hn', hrec, fun ht => ⟨fun pos => ?_, hread ht⟩,
      symlinkTarget_congr hwf.toMetaInv hwr.wf.toMetaInv hn.1 hrec hread⟩
    rw [hrec]
    exact hwr.others n hn hne ht pos

def sampleData : Bytes := fun k => BitVec.ofNat 8 (65 + k)

/-- Four bytes over the end of a file of five. -/
theorem writeFile_readFile_sample :
    (writeFile sampleVolume.m 11 3 sampleData 4 sampleFs).1 = some 4 ∧
    (readFile sampleVolume.m 11 3 4 (writeFile sampleVolume.m 11 3 sampleData 4 sampleFs).2).1 =
      some [65, 66, 67, 68] :=
  have hrun : (writeFile sampleVolume.m 11 3 sampleData 4 sampleFs).1 = some 4 := by decide
  ⟨hrun, (writeFile_readFile sampleFs_wellFormed ⟨⟨by decide, by decide⟩, by decide⟩
    (by rw [sampleFs_inode_file]; decide) (by decide) (Prod.ext hrun rfl)).1⟩

end BananaOS.Ext2
