import BananaOS.Ext2.DirEntries

/-!
# What an operation leaves alone

An operation on a name changes a few inodes: a directory or two, and the inode the name stands for.
`Outside T` says that it is an operation on the inodes in `T`.  Afterwards the volume is well formed
again, and every inode outside `T` has its bit, its record and, if it is in use, its tree: the same
blocks with the same bytes.  So whatever can be said about such an inode from its record and its
tree can still be said, in particular what it says as a directory (`Outside.dir`).
-/

namespace BananaOS.Ext2

open Function Bytes FailState BlockTree

structure SameTree (v : Volume) (s s' : Fs) (i : Inode) : Prop where
  block : ∀ q : Slot (Fin 14), q.Valid (shape v.m) → s'.block i q = s.block i q
  data : ∀ q : Slot (Fin 14), q.Valid (shape v.m) → s.block i q ≠ 0 →
    s'.disk (s.block i q) = s.disk (s.block i q)

structure Outside (v : Volume) (T : Set ℕ) (s s' : Fs) : Prop where
  wf : WellFormed v s'
  fault : s'.fault = s.fault
  now : s'.now = s.now
  inoBit : ∀ k, v.IsIno k → k ∉ T → s'.inoBit v k = s.inoBit v k
  record : ∀ k, v.IsIno k → k ∉ T → s'.inode v k = s.inode v k
  tree : ∀ k, s.Live v k → k ∉ T → (s.inode v k).HasTree → SameTree v s s' (s.inode v k)

structure SameCache (s s' : Fs) : Prop where
  dcache : s'.dcache = s.dcache
  dcacheNext : s'.dcacheNext = s.dcacheNext

section

variable {v : Volume} {s s₁ s' s'' : Fs} {i i' i₁ : Inode} {n : ℕ} {T T' : Set ℕ}

theorem SameVars.sameCache (h : SameVars s s') : SameCache s s' := ⟨h.dcache, h.dcacheNext⟩

/-! ## Trees -/

theorem SameTree.refl : SameTree v s s i := ⟨fun _ _ => rfl, fun _ _ _ => rfl⟩

theorem SameTree.trans (h : SameTree v s s' i) (h' : SameTree v s' s'' i) : SameTree v s s'' i where
  block q hq := (h'.block q hq).trans (h.block q hq)
  data q hq h0 := by
    have he := h.block q hq
    have hd := h'.data q hq (by rwa [he])
    rw [he] at hd
    exact hd.trans (h.data q hq h0)

theorem SameTree.of_data (h : ∀ q : Slot (Fin 14), q.Valid (shape v.m) → s.block i q ≠ 0 →
    s'.disk (s.block i q) = s.disk (s.block i q)) : SameTree v s s' i :=
  ⟨blockAt_congr fun p hp _ h0 => h p hp h0, h⟩

theorem SameTree.dir (h : SameTree v s s' i) (hd : DirOk v s i) :
    DirOk v s' i ∧ s'.entries v i = s.entries v i := by
  refine hd.congr (fun b hb => ?_) fun b hb => ?_
  · exact h.block _ (slotOf_valid (hd.present b hb).1).1
  · obtain ⟨hmax, h0⟩ := hd.present b hb
    have hv := (slotOf_valid (v := v) hmax).1
    rw [Fs.dirBlock, Fs.dirBlock, h.block _ hv]
    exact h.data _ hv h0

theorem WellFormed.bufs (h : WellFormed v s) (buf ibuf : Bytes) :
    WellFormed v { s with blkbuf := buf, indbuf := ibuf } :=
  ⟨h.toMetaInv.of_disk rfl rfl, h.metaUsed, h.sound⟩

theorem Writing.self (h : Writing v s n (s.inode v n)) : WellFormed v s := by
  have h := h.trees
  rwa [update_eq_self] at h

/-! ## Composing -/

theorem Outside.refl (hwf : WellFormed v s) : Outside v ∅ s s :=
  ⟨hwf, rfl, rfl, fun _ _ _ => rfl, fun _ _ _ => rfl, fun _ _ _ _ => .refl⟩

theorem Outside.bufs (hwf : WellFormed v s) (buf ibuf : Bytes) :
    Outside v ∅ s { s with blkbuf := buf, indbuf := ibuf } :=
  ⟨hwf.bufs buf ibuf, rfl, rfl, fun _ _ _ => rfl, fun _ _ _ => rfl,
    fun _ _ _ _ => ⟨fun _ _ => rfl, fun _ _ _ => rfl⟩⟩

section

variable (h : Outside v T s s')

include h

theorem Outside.mono (hT : T ⊆ T') : Outside v T' s s' :=
  ⟨h.wf, h.fault, h.now, fun k hk hn => h.inoBit k hk fun hc => hn (hT hc),
    fun k hk hn => h.record k hk fun hc => hn (hT hc),
    fun k hk hn => h.tree k hk fun hc => hn (hT hc)⟩

theorem Outside.live (hn : s.Live v n) (hT : n ∉ T) : s'.Live v n :=
  ⟨hn.1, (h.inoBit n hn.1 hT).trans hn.2⟩

theorem Outside.trans (h' : Outside v T s' s'') : Outside v T s s'' where
  wf := h'.wf
  fault := h'.fault.trans h.fault
  now := h'.now.trans h.now
  inoBit k hk hT := (h'.inoBit k hk hT).trans (h.inoBit k hk hT)
  record k hk hT := (h'.record k hk hT).trans (h.record k hk hT)
  tree k hk hT ht := by
    have hrec := h.record k hk.1 hT
    have h2 := h'.tree k (h.live hk hT) hT (by rwa [hrec])
    rw [hrec] at h2
    exact (h.tree k hk hT ht).trans h2

theorem Outside.dir (hn : s.Live v n) (hT : n ∉ T) (hd : DirOk v s (s.inode v n)) :
    DirOk v s' (s'.inode v n) ∧ s'.entries v (s'.inode v n) = s.entries v (s.inode v n) := by
  rw [h.record n hn.1 hT]
  exact (h.tree n hn hT hd.hasTree).dir hd

end

/-! ## Three kinds of operations -/

theorem outside_of_frame (hwf : WellFormed v s) (hinv : MetaInv v s')
    (hused : ∀ b < v.m.sBlocksCount, s.used v b = true → s'.used v b = true)
    (hino : ∀ k, v.IsIno k → s'.inoBit v k = s.inoBit v k)
    (hdata : ∀ b < v.m.sBlocksCount, s.used v b = true → ¬ v.IsAllocMeta b →
      s'.disk b = s.disk b) (hnow : s'.now = s.now) : Outside v ∅ s s' := by
  have hrec : ∀ k, v.IsIno k → s'.inode v k = s.inode v k := by
    intro k hk
    have hlt : v.recBlock k < v.m.sBlocksCount := v.rec_lt k hk.1 hk.2
    rw [Fs.inode, Fs.inode, hdata _ hlt (hwf.metaUsed _ hlt (.inr ⟨k, hk, rfl⟩))
      (v.rec_not_allocMeta hk)]
  have hok : ∀ b, s.Ok v b → s'.disk b = s.disk b :=
    fun b hb => hdata b hb.1 hb.2.2 fun hc => hb.2.1 (.inl hc)
  refine ⟨hwf.of_frame hinv hused ?_ (fun k hk => by rw [hrec k hk.1]) hok,
    funext fun b => (hinv.healthy b).trans (hwf.healthy b).symm, hnow, fun k hk _ => hino k hk,
    fun k hk _ => hrec k hk, fun k hk _ ht => ?_⟩
  · rintro k ⟨⟨hk, hbit⟩, ht⟩
    exact ⟨⟨hk, (hino k hk).symm.trans hbit⟩, by rwa [hrec k hk] at ht⟩
  · exact .of_data fun q hq h0 => hok _ (hwf.sound.ok k ⟨hk, ht⟩ q hq h0)

theorem WellFormed.edit (hwf : WellFormed v s) (hn : s.Live v n) (ht : (s.inode v n).HasTree)
    {q : Slot (Fin 14)} (hq : q.Valid (shape v.m)) (hl : q.level (shape v.m) = 0)
    (h0 : s.block (s.inode v n) q ≠ 0) (hvars : SameVars s s')
    (hD : ∀ x, x ≠ s.block (s.inode v n) q → s'.disk x = s.disk x) :
    Outside v {n} s s' ∧ s'.Live v n ∧ s'.inode v n = s.inode v n ∧
      ∀ p : Slot (Fin 14), p.Valid (shape v.m) →
        s'.block (s.inode v n) p = s.block (s.inode v n) p := by
  have hw : Writing v s n (s.inode v n) := hwf.writing hn ht s.blkbuf
  obtain ⟨hg, hblocks⟩ := hw.write_data s' hq hl h0 hvars hD
  have hg := hg.regrown
  have hrec : ∀ k, v.IsIno k → s'.inode v k = s.inode v k := fun k hk => hg.inode hw hk
  have hinv : Writing v s' n (s'.inode v n) := by
    rw [hrec n hn.1]
    exact hg.inv
  refine ⟨⟨hinv.self, hvars.fault, hvars.now, fun k hk _ => hg.inoBit k hk,
    fun k hk _ => hrec k hk, fun k hk hne ht' => ?_⟩, hinv.live, hrec n hn.1, hblocks⟩
  exact .of_data fun p hp hp0 => hg.other_data hw hne hk ht' hp hp0

theorem Regrown.outside (hw : Writing v s n (s.inode v n))
    (h : Regrown v n s (s.inode v n) s₁ i₁) (hroots : i'.roots = i₁.roots) :
    Outside v {n} s (s₁.withInode v n i') ∧ (s₁.withInode v n i').Live v n ∧
      SameTree v s₁ (s₁.withInode v n i') i' := by
  have hn := hw.live.1
  have hrec : ∀ k, v.IsIno k → k ≠ n → (s₁.withInode v n i').inode v k = s.inode v k :=
    fun k hk hne => (inode_withInode_of_ne hn hk hne i').trans (h.inode hw hk)
  have hbit : ∀ k, v.IsIno k → (s₁.withInode v n i').inoBit v k = s.inoBit v k :=
    fun k hk => (inoBit_withInode hn hk i').trans (h.inoBit k hk)
  refine ⟨⟨h.inv.record hroots, h.vars.fault, h.vars.now, fun k hk _ => hbit k hk,
    fun k hk hne => hrec k hk hne, fun k hk hne ht => ?_⟩, ⟨hn, (hbit n hn).trans hw.live.2⟩, ?_⟩
  · refine .of_data fun q hq h0 => ?_
    have hok := hw.otherOk hne hk ht hq h0
    exact (withInode_disk_of_ne fun he => hok.2.1 (.inr ⟨n, hn, he⟩)).trans
      (h.other_data hw hne hk ht hq h0)
  · refine .of_data fun q hq h0 => withInode_disk_of_ne fun he => ?_
    have hb : s₁.block i' q = s₁.block i₁ q := by rw [Fs.block, Fs.block, hroots]
    rw [hb] at h0 he
    exact (h.inv.ok hq h0).2.1 (.inr ⟨n, hn, he⟩)

/-! ## A block of a directory is written -/

structure Edited (v : Volume) (n b : ℕ) (p : Bytes) (s s' : Fs) : Prop where
  outside : Outside v {n} s s'
  cache : SameCache s s'
  live : s'.Live v n
  record : s'.inode v n = s.inode v n
  block : ∀ q : Slot (Fin 14), q.Valid (shape v.m) →
    s'.block (s.inode v n) q = s.block (s.inode v n) q
  dirBlock : ∀ c < maxBlocks v.m, s'.dirBlock v (s.inode v n) c =
    if c = b then p else s.dirBlock v (s.inode v n) c

theorem WellFormed.editDir (hwf : WellFormed v s) (hn : s.Live v n)
    (hd : DirOk v s (s.inode v n)) {b : ℕ} (hb : b < dirBlocks v.m (s.inode v n)) {p : Bytes}
    (hvars : SameVars s s')
    (hD : s'.disk = update s.disk (s.block (s.inode v n) (slotOf v.m b)) p) :
    Edited v n b p s s' := by
  obtain ⟨hmax, h0⟩ := hd.present b hb
  obtain ⟨hv, hl⟩ := slotOf_valid (v := v) hmax
  have hout : ∀ x, x ≠ s.block (s.inode v n) (slotOf v.m b) → s'.disk x = s.disk x := by
    intro x hx
    rw [hD, update_of_ne hx]
  obtain ⟨houtside, hlive, hrec, hblocks⟩ := hwf.edit hn hd.hasTree hv hl h0 hvars hout
  refine ⟨houtside, hvars.sameCache, hlive, hrec, hblocks, fun c hc => ?_⟩
  have hvc := (slotOf_valid (v := v) hc).1
  rw [Fs.dirBlock, hblocks _ hvc]
  by_cases he : c = b
  · rw [if_pos he, he, hD, update_self]
  · rw [if_neg he]
    by_cases hc0 : s.block (s.inode v n) (slotOf v.m c) = 0
    · refine hout _ fun hbad => h0 ?_
      rw [← hbad, hc0]
    · refine hout _ fun hbad => he (slotOf_inj (v := v) ?_)
      exact (hwf.sound.inj n n ⟨hn, hd.hasTree⟩ ⟨hn, hd.hasTree⟩ _ _ hvc hv hc0 hbad).2

theorem flatMap_perm_cons {α β : Type*} {l : List α} (hl : l.Nodup) {a : α} (ha : a ∈ l)
    {f g : α → List β} {e : β} (hfg : (f a).Perm (e :: g a)) (hne : ∀ c ∈ l, c ≠ a → f c = g c) :
    (l.flatMap f).Perm (e :: l.flatMap g) := by
  obtain ⟨l₁, l₂, rfl⟩ := List.append_of_mem ha
  obtain ⟨-, hnd, hdisj⟩ := List.nodup_append.mp hl
  have h₁ : l₁.flatMap f = l₁.flatMap g := List.flatMap_congr fun c hc =>
    hne c (by simp [hc]) (hdisj c hc a List.mem_cons_self)
  have h₂ : l₂.flatMap f = l₂.flatMap g := List.flatMap_congr fun c hc =>
    hne c (by simp [hc]) fun he => (List.nodup_cons.mp hnd).1 (he ▸ hc)
  rw [List.flatMap_append, List.flatMap_append, List.flatMap_cons, List.flatMap_cons, h₁, h₂]
  exact ((hfg.append_right _).append_left _).trans List.perm_middle

section Edited

variable {b : ℕ} {p : Bytes} {e : Name × ℕ}

theorem Edited.dir (h : Edited v n b p s s') (hd : DirOk v s (s.inode v n))
    (ht : ∃ l, Tiled v.m.blkSize p l) :
    DirOk v s' (s'.inode v n) := by
  rw [h.record]
  refine ⟨hd.isDir, hd.size_le, fun c hc => ?_, fun c hc => ?_⟩
  · obtain ⟨hmax, h0⟩ := hd.present c hc
    rw [h.block _ (slotOf_valid hmax).1]
    exact ⟨hmax, h0⟩
  · rw [h.dirBlock c (hd.present c hc).1]
    by_cases he : c = b
    · rw [if_pos he]
      exact ht
    · rw [if_neg he]
      exact hd.tiled c hc

theorem Edited.entries_cons (h : Edited v n b p s s') (hd : DirOk v s (s.inode v n))
    (hb : b < dirBlocks v.m (s.inode v n))
    (hp : (blockEntries v.m.blkSize p).Perm
      (e :: blockEntries v.m.blkSize (s.dirBlock v (s.inode v n) b))) :
    (s'.entries v (s.inode v n)).Perm (e :: s.entries v (s.inode v n)) := by
  have hdb := fun c hc => h.dirBlock c (hd.present c hc).1
  refine flatMap_perm_cons List.nodup_range (List.mem_range.mpr hb) ?_ fun c hc hne => ?_
  · rw [hdb b hb, if_pos rfl]
    exact hp
  · rw [hdb c (List.mem_range.mp hc), if_neg hne]

theorem Edited.cons_entries (h : Edited v n b p s s') (hd : DirOk v s (s.inode v n))
    (hb : b < dirBlocks v.m (s.inode v n))
    (hp : (blockEntries v.m.blkSize (s.dirBlock v (s.inode v n) b)).Perm
      (e :: blockEntries v.m.blkSize p)) :
    (s.entries v (s.inode v n)).Perm (e :: s'.entries v (s.inode v n)) := by
  have hdb := fun c hc => h.dirBlock c (hd.present c hc).1
  refine flatMap_perm_cons List.nodup_range (List.mem_range.mpr hb) ?_ fun c hc hne => ?_
  · rw [hdb b hb, if_pos rfl]
    exact hp
  · rw [hdb c (List.mem_range.mp hc), if_neg hne]

end Edited

end

end BananaOS.Ext2
