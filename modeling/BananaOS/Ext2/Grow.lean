import BananaOS.Ext2.Tree

/-!
# Growing the tree of one file

While a file is written its inode is a local variable, ahead of the record on the disk: blocks are
allocated and entered one by one, and the record follows at the end.  So the invariant of that time,
`Writing`, is the one of the volume with this one record replaced.
-/

namespace BananaOS.Ext2

open Function Bytes FailState BlockTree

/-! ## Metadata that stays -/

structure SameMeta (v : Volume) (s s' : Fs) : Prop where
  disk : ∀ b, v.IsMeta b → s'.disk b = s.disk b
  fault : s'.fault = s.fault

variable {b n : ℕ}

namespace SameMeta

variable {v : Volume} {s s' : Fs}

theorem inv (h : SameMeta v s s') (hi : MetaInv v s) : MetaInv v s' := by
  refine hi.of_gdesc h.fault fun g hg => ?_
  have he : s'.gdesc v g = s.gdesc v g := by
    unfold Fs.gdesc
    rw [h.disk _ (.inl (.inr ⟨g, hg, .inl rfl⟩))]
  rw [he]
  exact ⟨rfl, rfl, rfl⟩

theorem used (h : SameMeta v s s') (hb : b < v.m.sBlocksCount) : s'.used v b = s.used v b := by
  unfold Fs.used
  rw [h.disk _ (.inl (.inr ⟨_, v.blkGroup_lt hb, .inr (.inl rfl)⟩))]

theorem inoBit (h : SameMeta v s s') (hn : v.IsIno n) : s'.inoBit v n = s.inoBit v n := by
  unfold Fs.inoBit
  rw [h.disk _ (.inl (.inr ⟨_, v.inoGroup_lt hn, .inr (.inr rfl)⟩))]

theorem inode (h : SameMeta v s s') (hn : v.IsIno n) : s'.inode v n = s.inode v n := by
  unfold Fs.inode
  rw [h.disk _ (.inr ⟨n, hn, rfl⟩)]

end SameMeta

structure SameVars (s s' : Fs) : Prop where
  fault : s'.fault = s.fault
  dcache : s'.dcache = s.dcache
  dcacheNext : s'.dcacheNext = s.dcacheNext
  now : s'.now = s.now

theorem SameVars.trans {s s' s'' : Fs} (h : SameVars s s') (h' : SameVars s' s'') :
    SameVars s s'' :=
  ⟨h'.fault.trans h.fault, h'.dcache.trans h.dcache, h'.dcacheNext.trans h.dcacheNext,
    h'.now.trans h.now⟩

theorem MetaStep.sameVars {v : Volume} {s s' : Fs} (h : MetaStep v s s') (hi : MetaInv v s) :
    SameVars s s' :=
  ⟨funext fun b => (h.inv.healthy b).trans (hi.healthy b).symm, h.dcache, h.dcacheNext, h.now⟩

theorem TreesInv.of_frame {v : Volume} {s s' : Fs} {rec rec' : ℕ → Inode} (ht : TreesInv v s rec)
    (hinv : MetaInv v s') (hused : ∀ b < v.m.sBlocksCount, s.used v b = true → s'.used v b = true)
    (hlive : ∀ n, s'.Live v n ∧ (rec' n).HasTree → s.Live v n ∧ (rec n).HasTree)
    (hroots : ∀ n, s'.Live v n → (rec' n).roots = (rec n).roots)
    (hD : ∀ b, s.Ok v b → s'.disk b = s.disk b) : TreesInv v s' rec' := by
  have hs := ht.sound.mono_live hlive
  refine ⟨hinv, fun b hb hm => hused b hb (ht.metaUsed b hb hm),
    hs.congr (fun b hb => ⟨hb.1, hb.2.1, hused b hb.1 hb.2.2⟩) fun n hn q hq => ?_⟩
  rw [hroots n hn.1]
  exact hs.frame hD hn hq

/-! ## The invariant -/

structure Writing (v : Volume) (s : Fs) (ino : ℕ) (i : Inode) : Prop where
  trees : TreesInv v s (update (s.inode v) ino i)
  live : s.Live v ino
  hasTree : i.HasTree

def Fs.Holds (s : Fs) (v : Volume) (i : Inode) (b : ℕ) : Prop :=
  b ≠ 0 ∧ ∃ q : Slot (Fin 14), q.Valid (shape v.m) ∧ s.block i q = b

section Writing

variable {v : Volume} {s s' : Fs} {ino : ℕ} {i i' : Inode} {q q' : Slot (Fin 14)}

variable (hw : Writing v s ino i)

include hw

theorem Writing.ok (hq : q.Valid (shape v.m)) (h0 : s.block i q ≠ 0) : s.Ok v (s.block i q) := by
  have h := hw.trees.sound.ok ino
  simp only [update_self] at h
  exact h ⟨hw.live, hw.hasTree⟩ q hq h0

theorem Writing.inj (hq : q.Valid (shape v.m))
    (hq' : q'.Valid (shape v.m)) (h0 : s.block i q ≠ 0) (he : s.block i q = s.block i q') :
    q = q' := by
  have h := hw.trees.sound.inj ino ino
  simp only [update_self] at h
  exact (h ⟨hw.live, hw.hasTree⟩ ⟨hw.live, hw.hasTree⟩ q q' hq hq' h0 he).2

theorem Writing.inRange : s.InRange v i :=
  fun _ hq h0 => (hw.ok hq h0).1

theorem Writing.apart (hne : n ≠ ino) (hn : s.Live v n)
    (ht : (s.inode v n).HasTree) (hq : q.Valid (shape v.m))
    (h0 : s.block (s.inode v n) q ≠ 0) : ¬ s.Holds v i (s.block (s.inode v n) q) := by
  rintro ⟨-, q', hq', he⟩
  have h := hw.trees.sound.inj n ino
  simp only [update_self, update_of_ne hne] at h
  exact hne (h ⟨hn, ht⟩ ⟨hw.live, hw.hasTree⟩ q q' hq hq' h0 he.symm).1

theorem Writing.otherOk (hne : n ≠ ino) (hn : s.Live v n)
    (ht : (s.inode v n).HasTree) (hq : q.Valid (shape v.m))
    (h0 : s.block (s.inode v n) q ≠ 0) : s.Ok v (s.block (s.inode v n) q) := by
  have h := hw.trees.sound.ok n
  simp only [update_of_ne hne] at h
  exact h ⟨hn, ht⟩ q hq h0

theorem Writing.not_meta (hb : b < v.m.sBlocksCount)
    (hf : s.used v b = false) : ¬ v.IsMeta b := fun hm => by
  rw [hw.trees.metaUsed b hb hm] at hf
  cases hf

theorem Writing.ne_alloced (ha : BlockAlloced v s b s') (hb : b ≠ 0)
    (hq : q.Valid (shape v.m)) : s.block i q ≠ b := fun he =>
  ha.ne_of_used hb (hw.ok hq (he ▸ hb)).2.2 he

theorem Writing.disk_alloced (ha : BlockAlloced v s b s')
    (hq : q.Valid (shape v.m)) (h0 : s.block i q ≠ 0) :
    s'.disk (s.block i q) = s.disk (s.block i q) :=
  ha.step.data _ fun hc => (hw.ok hq h0).2.1 (.inl hc)

end Writing

theorem WellFormed.writing {v : Volume} {s : Fs} {ino : ℕ} (hwf : WellFormed v s)
    (hlive : s.Live v ino) (ht : (s.inode v ino).HasTree) (buf : Bytes) :
    Writing v { s with blkbuf := buf } ino (s.inode v ino) := by
  refine ⟨⟨hwf.toMetaInv.of_disk rfl rfl, hwf.metaUsed, ?_⟩, hlive, ht⟩
  rw [show update (({ s with blkbuf := buf } : Fs).inode v) ino (s.inode v ino) =
    s.inode v from update_eq_self ino (s.inode v)]
  exact hwf.sound

/-! ## Steps -/

structure Grown (v : Volume) (ino : ℕ) (s : Fs) (i : Inode) (s' : Fs) (i' : Inode) : Prop where
  inv : Writing v s' ino i'
  vars : SameVars s s'
  inoBit : ∀ n, v.IsIno n → s'.inoBit v n = s.inoBit v n
  used : ∀ b < v.m.sBlocksCount, s.used v b = true → s'.used v b = true
  /-- Blocks in use, other than the allocators' and those of the file, are not written. -/
  frame : ∀ b < v.m.sBlocksCount, s.used v b = true → ¬ v.IsAllocMeta b → ¬ s.Holds v i b →
    s'.disk b = s.disk b
  keep : ∀ q : Slot (Fin 14), q.Valid (shape v.m) → s.block i q ≠ 0 →
    s'.block i' q = s.block i q
  fresh : ∀ q : Slot (Fin 14), q.Valid (shape v.m) → s'.block i' q ≠ 0 →
    s'.block i' q = s.block i q ∨ s.used v (s'.block i' q) = false
  record : i' = { i with block := i'.block }

structure Regrown (v : Volume) (ino : ℕ) (s : Fs) (i : Inode) (s' : Fs) (i' : Inode) : Prop where
  inv : Writing v s' ino i'
  vars : SameVars s s'
  inoBit : ∀ n, v.IsIno n → s'.inoBit v n = s.inoBit v n
  used : ∀ b < v.m.sBlocksCount, s.used v b = true → s'.used v b = true
  frame : ∀ b < v.m.sBlocksCount, s.used v b = true → ¬ v.IsAllocMeta b → ¬ s.Holds v i b →
    s'.disk b = s.disk b
  fresh : ∀ q : Slot (Fin 14), q.Valid (shape v.m) → s'.block i' q ≠ 0 →
    s'.block i' q = s.block i q ∨ s.used v (s'.block i' q) = false
  record : i' = { i with block := i'.block }

section Regrown

variable {v : Volume} {s s' s'' : Fs} {ino : ℕ} {i i' i'' : Inode}

theorem Grown.regrown (h : Grown v ino s i s' i') : Regrown v ino s i s' i' :=
  ⟨h.inv, h.vars, h.inoBit, h.used, h.frame, h.fresh, h.record⟩

theorem Regrown.not_holds (h : Regrown v ino s i s' i') (hu : s.used v b = true)
    (hb : ¬ s.Holds v i b) : ¬ s'.Holds v i' b := by
  rintro ⟨h0, q, hq, rfl⟩
  rcases h.fresh q hq h0 with he | hf
  · exact hb ⟨h0, q, hq, he.symm⟩
  · rw [hu] at hf
    cases hf

theorem Regrown.trans (h : Regrown v ino s i s' i') (h' : Regrown v ino s' i' s'' i'') :
    Regrown v ino s i s'' i'' where
  inv := h'.inv
  vars := h.vars.trans h'.vars
  inoBit n hn := (h'.inoBit n hn).trans (h.inoBit n hn)
  used b hb hu := h'.used b hb (h.used b hb hu)
  frame b hb hu hm hn :=
    (h'.frame b hb (h.used b hb hu) hm (h.not_holds hu hn)).trans (h.frame b hb hu hm hn)
  fresh q hq h0 := by
    rcases h'.fresh q hq h0 with he | hf
    · rw [he] at h0 ⊢
      exact h.fresh q hq h0
    · refine .inr ?_
      -- what is free later was free before
      have hlt := (h'.inv.ok hq h0).1
      cases hu : s.used v (s''.block i'' q) with
      | false => rfl
      | true => exact (h.used _ hlt hu).symm.trans hf
  record := by
    have h1 := h.record
    have h2 := h'.record
    rw [h1] at h2
    exact h2

theorem Regrown.inode (hw : Writing v s ino i) (h : Regrown v ino s i s' i')
    (hn : v.IsIno n) : s'.inode v n = s.inode v n := by
  have hlt : v.recBlock n < v.m.sBlocksCount := v.rec_lt n hn.1 hn.2
  have hm : v.IsMeta (v.recBlock n) := .inr ⟨n, hn, rfl⟩
  have hframe := h.frame _ hlt (hw.trees.metaUsed _ hlt hm) (v.rec_not_allocMeta hn) fun hc => by
    obtain ⟨h0, q, hq, he⟩ := hc
    exact (hw.ok hq (he ▸ h0)).2.1 (he ▸ hm)
  unfold Fs.inode
  rw [hframe]

theorem Regrown.other_data (hw : Writing v s ino i) (h : Regrown v ino s i s' i')
    (hne : n ≠ ino) (hn : s.Live v n) (ht : (s.inode v n).HasTree) {q : Slot (Fin 14)}
    (hq : q.Valid (shape v.m)) (h0 : s.block (s.inode v n) q ≠ 0) :
    s'.disk (s.block (s.inode v n) q) = s.disk (s.block (s.inode v n) q) := by
  obtain ⟨hlt, hm, hu⟩ := hw.otherOk hne hn ht hq h0
  exact h.frame _ hlt hu (fun hc => hm (.inl hc)) (hw.apart hne hn ht hq h0)

theorem Regrown.other_block (hw : Writing v s ino i) (h : Regrown v ino s i s' i')
    (hne : n ≠ ino) (hn : s.Live v n) (ht : (s.inode v n).HasTree) {q : Slot (Fin 14)}
    (hq : q.Valid (shape v.m)) : s'.block (s.inode v n) q = s.block (s.inode v n) q :=
  blockAt_congr (fun _ hp _ h0 => h.other_data hw hne hn ht hp h0) q hq

end Regrown

section Grown

variable {v : Volume} {s s' s'' : Fs} {ino : ℕ} {i i' i'' : Inode}

theorem Grown.of_regrown (h : Regrown v ino s i s' i')
    (hkeep : ∀ q : Slot (Fin 14), q.Valid (shape v.m) → s.block i q ≠ 0 →
      s'.block i' q = s.block i q) : Grown v ino s i s' i' :=
  ⟨h.inv, h.vars, h.inoBit, h.used, h.frame, hkeep, h.fresh, h.record⟩

theorem Grown.refl (hw : Writing v s ino i) : Grown v ino s i s i where
  inv := hw
  vars := ⟨rfl, rfl, rfl, rfl⟩
  inoBit _ _ := rfl
  used _ _ h := h
  frame _ _ _ _ _ := rfl
  keep _ _ _ := rfl
  fresh _ _ _ := .inl rfl
  record := rfl

theorem Grown.trans (h : Grown v ino s i s' i') (h' : Grown v ino s' i' s'' i'') :
    Grown v ino s i s'' i'' :=
  .of_regrown (h.regrown.trans h'.regrown) fun q hq h0 => by
    have he := h.keep q hq h0
    exact (h'.keep q hq (by rwa [he])).trans he

theorem Grown.of_buffers (hw : Writing v s ino i) (b1 b2 : Bytes) :
    Grown v ino s i { s with blkbuf := b1, indbuf := b2 } i where
  inv := ⟨⟨hw.trees.toMetaInv.of_disk rfl rfl, hw.trees.metaUsed, hw.trees.sound⟩, hw.live,
    hw.hasTree⟩
  vars := ⟨rfl, rfl, rfl, rfl⟩
  inoBit _ _ := rfl
  used _ _ h := h
  frame _ _ _ _ _ := rfl
  keep _ _ _ := rfl
  fresh _ _ _ := .inl rfl
  record := rfl

end Grown

/-! ## The two kinds of steps -/

def SameData (v : Volume) (s : Fs) (i : Inode) (s' : Fs) : Prop :=
  ∀ q : Slot (Fin 14), q.Valid (shape v.m) → q.level (shape v.m) = 0 → s.block i q ≠ 0 →
    s'.disk (s.block i q) = s.disk (s.block i q)

theorem SameData.trans {v : Volume} {s s' s'' : Fs} {ino : ℕ} {i i' : Inode}
    (h : SameData v s i s') (hg : Grown v ino s i s' i') (h' : SameData v s' i' s'') :
    SameData v s i s'' := by
  intro q hq hl h0
  have he := hg.keep q hq h0
  have hd := h' q hq hl (by rwa [he])
  rw [he] at hd
  exact hd.trans (h q hq hl h0)

theorem hasTree_of_record {i i' : Inode} (h : i' = { i with block := i'.block }) :
    i'.HasTree ↔ i.HasTree := by
  rw [h]
  rfl

section Steps

variable {v : Volume} {s s₁ s' : Fs} {ino : ℕ} {i i₁ i' : Inode} {q : Slot (Fin 14)} {b : ℕ}

theorem live_of_step (hino : ∀ n, v.IsIno n → s'.inoBit v n = s.inoBit v n)
    (hrecs : ∀ n, v.IsIno n → s'.inode v n = s.inode v n)
    (hrec : i' = { i with block := i'.block })
    (h : s'.Live v n ∧ (update (s'.inode v) ino i' n).HasTree) :
    s.Live v n ∧ (update (s.inode v) ino i n).HasTree := by
  obtain ⟨⟨hn, hbit⟩, ht⟩ := h
  refine ⟨⟨hn, (hino n hn).symm.trans hbit⟩, ?_⟩
  by_cases hne : n = ino
  · subst hne
    rw [update_self] at ht ⊢
    exact (hasTree_of_record hrec).mp ht
  · rw [update_of_ne hne] at ht ⊢
    rwa [hrecs n hn] at ht

theorem Writing.same_trees (hw : Writing v s ino i) (hvars : SameVars s s') (hinv : MetaInv v s')
    (hused : ∀ x < v.m.sBlocksCount, s.used v x = true → s'.used v x = true)
    (hino : ∀ n, v.IsIno n → s'.inoBit v n = s.inoBit v n)
    (hrecs : ∀ n, v.IsIno n → s'.inode v n = s.inode v n)
    (hsame : ∀ n, s.Live v n ∧ (update (s.inode v) ino i n).HasTree →
      ∀ p : Slot (Fin 14), p.Valid (shape v.m) →
        s'.block (update (s.inode v) ino i n) p = s.block (update (s.inode v) ino i n) p)
    (hframe : ∀ x < v.m.sBlocksCount, s.used v x = true → ¬ v.IsAllocMeta x → ¬ s.Holds v i x →
      s'.disk x = s.disk x) :
    Grown v ino s i s' i ∧
      ∀ p : Slot (Fin 14), p.Valid (shape v.m) → s'.block i p = s.block i p := by
  have hlive : ∀ n, (s'.Live v n ∧ (update (s'.inode v) ino i n).HasTree) →
      s.Live v n ∧ (update (s.inode v) ino i n).HasTree := fun n => live_of_step hino hrecs rfl
  have hblocks := hsame ino
  simp only [update_self] at hblocks
  have hblocks := hblocks ⟨hw.live, hw.hasTree⟩
  refine ⟨⟨⟨⟨hinv, fun x hx hm => hused x hx (hw.trees.metaUsed x hx hm),
    (hw.trees.sound.mono_live hlive).congr (fun x hx => ⟨hx.1, hx.2.1, hused x hx.1 hx.2.2⟩)
      fun n hn p hp => ?_⟩, ⟨hw.live.1, (hino ino hw.live.1).trans hw.live.2⟩, hw.hasTree⟩, hvars,
    hino, hused, hframe, fun p hp _ => hblocks p hp, fun p hp _ => .inl (hblocks p hp), rfl⟩, hblocks⟩
  have hupd : update (s'.inode v) ino i n = update (s.inode v) ino i n := by
    by_cases hne : n = ino
    · rw [hne, update_self, update_self]
    · rw [update_of_ne hne, update_of_ne hne, hrecs n hn.1.1]
  rw [hupd]
  exact hsame n (hlive n hn) p hp

theorem Writing.alloc (hw : Writing v s ino i) (ha : BlockAlloced v s b s₁) (s' : Fs)
    (hvars : SameVars s₁ s') (hD : ∀ x, (b ≠ 0 → x ≠ b) → s'.disk x = s₁.disk x) :
    Regrown v ino s i s' i ∧ (∀ p : Slot (Fin 14), p.Valid (shape v.m) →
      s'.block i p = s.block i p) ∧ (b ≠ 0 → s'.used v b = true) := by
  have hbm : b ≠ 0 → ¬ v.IsMeta b := fun hb => hw.not_meta (ha.fresh hb).1 (ha.fresh hb).2.1
  have hmeta : SameMeta v s₁ s' := ⟨fun x hx => hD x fun hb he => hbm hb (he ▸ hx), hvars.fault⟩
  have hdata : ∀ x, s.used v x = true → ¬ v.IsAllocMeta x → s'.disk x = s.disk x :=
    fun x hu hm => (hD x fun hb => ha.ne_of_used hb hu).trans (ha.step.data x hm)
  obtain ⟨hg, hblocks⟩ := hw.same_trees ((ha.step.sameVars hw.trees.toMetaInv).trans hvars)
    (hmeta.inv ha.step.inv) (fun x hx hu => (hmeta.used hx).trans (ha.used_mono x hx hu))
    (fun n hn => (hmeta.inoBit hn).trans (ha.inoBit n hn))
    (fun n hn => (hmeta.inode hn).trans (ha.step.inode hn))
    (fun n hn p hp => hw.trees.sound.frame (fun x hx => hdata x hx.2.2 fun h => hx.2.1 (.inl h)) hn hp)
    fun x _ hu hm _ => hdata x hu hm
  exact ⟨hg.regrown, hblocks, fun hb => (hmeta.used (ha.fresh hb).1).trans (ha.fresh hb).2.2⟩

theorem Regrown.enter (h : Regrown v ino s i s₁ i₁) (i' : Inode) (s' : Fs)
    (hw : Writing v s ino i) (hb : b ≠ 0) (hlt : b < v.m.sBlocksCount) (hfree : s.used v b = false) (hset : s₁.used v b = true)
    (hnew : ∀ p : Slot (Fin 14), p.Valid (shape v.m) → s₁.block i₁ p ≠ b)
    (hvars : SameVars s₁ s')
    (hD : ∀ x, x ≠ b → (∀ p : Slot (Fin 14), p.Valid (shape v.m) → 0 < p.level (shape v.m) →
      s₁.block i₁ p ≠ 0 → s₁.block i₁ p ≠ x) → s'.disk x = s₁.disk x)
    (hrec : i' = { i₁ with block := i'.block })
    (hat : ∀ p : Slot (Fin 14), p.Valid (shape v.m) →
      s'.block i' p = if p = q then b else s₁.block i₁ p) :
    Regrown v ino s i s' i' ∧ SameData v s₁ i₁ s' := by
  have hw₁ := h.inv
  have hbm := hw.not_meta hlt hfree
  -- neither the new block nor the index blocks are metadata
  have hmeta : SameMeta v s₁ s' := by
    refine ⟨fun x hx => hD x (fun he => hbm (he ▸ hx)) fun p hp _ hp0 he => ?_, hvars.fault⟩
    exact (hw₁.ok hp hp0).2.1 (he ▸ hx)
  have hino : ∀ n, v.IsIno n → s'.inoBit v n = s₁.inoBit v n := fun n hn => hmeta.inoBit hn
  have hrecs : ∀ n, v.IsIno n → s'.inode v n = s₁.inode v n := fun n hn => hmeta.inode hn
  have hused : ∀ x < v.m.sBlocksCount, s₁.used v x = true → s'.used v x = true :=
    fun x hx hu => (hmeta.used hx).trans hu
  -- the trees of others are those of the first state, where the block was free
  have hother : ∀ n, s₁.Live v n → (s₁.inode v n).HasTree → n ≠ ino →
      ∀ p : Slot (Fin 14), p.Valid (shape v.m) → s₁.block (s₁.inode v n) p ≠ 0 →
        s₁.block (s₁.inode v n) p ≠ b := by
    intro n hn ht hne p hp hp0 he
    have hn' : s.Live v n := ⟨hn.1, (h.inoBit n hn.1).symm.trans hn.2⟩
    rw [h.inode hw hn.1] at ht hp0 he
    rw [h.other_block hw hne hn' ht hp] at hp0 he
    have hu := (hw.otherOk hne hn' ht hp hp0).2.2
    rw [he, hfree] at hu
    cases hu
  have hlive : ∀ n, (s'.Live v n ∧ (update (s'.inode v) ino i' n).HasTree) →
      s₁.Live v n ∧ (update (s₁.inode v) ino i₁ n).HasTree :=
    fun n => live_of_step hino hrecs hrec
  have hapart : Sound (shape v.m) s₁.disk
      (fun n => s₁.Live v n ∧ (update (s₁.inode v) ino i₁ n).HasTree)
      (fun n => (update (s₁.inode v) ino i₁ n).roots)
      (fun x => s₁.Ok v x ∧ x ≠ b) := by
    refine ⟨fun n hn p hp hp0 => ⟨hw₁.trees.sound.ok n hn p hp hp0, ?_⟩, hw₁.trees.sound.inj⟩
    by_cases hne : n = ino
    · subst hne
      simp only [update_self] at hp0 ⊢
      exact hnew p hp
    · simp only [update_of_ne hne] at hn hp0 ⊢
      exact hother n hn.1 hn.2 hne p hp hp0
  have hsound : Sound (shape v.m) s'.disk
      (fun n => s'.Live v n ∧ (update (s'.inode v) ino i' n).HasTree)
      (fun n => (update (s'.inode v) ino i' n).roots) (s'.Ok v) := by
    refine (hapart.mono_live hlive).attach (n := ino) (q := q) (b := b)
      (fun x hx => ⟨hx.1.1, hx.1.2.1, hused x hx.1.1 hx.1.2.2⟩) ⟨hlt, hbm, hused b hlt hset⟩
      (fun hk => hk.2 rfl) ?_ ?_
    · simp only [update_self]
      exact hat
    · intro n hn hne p hp
      obtain ⟨hl, ht⟩ := hlive n hn
      simp only [update_of_ne hne] at ht ⊢
      rw [hrecs n hl.1]
      refine blockAt_congr (fun p' hp' _ hp0 => ?_) p hp
      refine hD _ (hother n hl ht hne p' hp' hp0) fun p'' hp'' _ h0 he => ?_
      exact hw₁.apart hne hl ht hp' hp0 ⟨hp0, p'', hp'', he⟩
  refine ⟨⟨⟨⟨hmeta.inv hw₁.trees.toMetaInv, fun x hx hm =>
    hused x hx (hw₁.trees.metaUsed x hx hm), hsound⟩,
    ⟨hw.live.1, (hino ino hw.live.1).trans hw₁.live.2⟩, (hasTree_of_record hrec).mpr hw₁.hasTree⟩,
    h.vars.trans hvars, fun n hn => (hino n hn).trans (h.inoBit n hn),
    fun x hx hu => hused x hx (h.used x hx hu), fun x hx hu hm hn => ?_, fun p hp hp0 => ?_, ?_⟩,
    fun p hp hl hp0 => ?_⟩
  · have hne : x ≠ b := by
      rintro rfl
      rw [hu] at hfree
      cases hfree
    refine (hD x hne fun p hp _ hp0 he => ?_).trans (h.frame x hx hu hm hn)
    exact h.not_holds hu hn ⟨he ▸ hp0, p, hp, he⟩
  · rw [hat p hp] at hp0 ⊢
    by_cases he : p = q
    · rw [if_pos he]
      exact .inr hfree
    · rw [if_neg he] at hp0 ⊢
      exact h.fresh p hp hp0
  · have h1 := h.record
    rw [h1] at hrec
    exact hrec
  · refine hD _ (hnew p hp) fun p' hp' hl' hp0' he => ?_
    -- a data block is no index block
    rw [hw₁.inj hp' hp hp0' he] at hl'
    omega

theorem Writing.put (hw : Writing v s ino i) (ha : BlockAlloced v s b s₁) (hb : b ≠ 0)
    (hvars : SameVars s₁ s')
    (hD : ∀ x, x ≠ b → (∀ p : Slot (Fin 14), p.Valid (shape v.m) → 0 < p.level (shape v.m) →
      s.block i p ≠ 0 → s.block i p ≠ x) → s'.disk x = s₁.disk x)
    (hrec : i' = { i with block := i'.block })
    (hat : ∀ p : Slot (Fin 14), p.Valid (shape v.m) →
      s'.block i' p = if p = q then b else s.block i p) :
    Regrown v ino s i s' i' ∧ SameData v s i s' := by
  obtain ⟨hlt, hfree, -⟩ := ha.fresh hb
  obtain ⟨hg, hsame, hset⟩ := hw.alloc ha s₁ ⟨rfl, rfl, rfl, rfl⟩ fun _ _ => rfl
  obtain ⟨hput, hdata⟩ := hg.enter _ _ hw hb hlt hfree (hset hb)
    (fun p hp => by rw [hsame p hp]; exact hw.ne_alloced ha hb hp) hvars
    (fun x hx hn => hD x hx fun p hp hl hp0 => by
      rw [← hsame p hp] at hp0 ⊢
      exact hn p hp hl hp0) hrec fun p hp => by rw [hat p hp, hsame p hp]
  refine ⟨hput, fun p hp hl hp0 => ?_⟩
  have h := hdata p hp hl (by rwa [hsame p hp])
  rw [hsame p hp] at h
  exact h.trans (hw.disk_alloced ha hp hp0)

variable (s') in
theorem Writing.write_data (hw : Writing v s ino i) (hq : q.Valid (shape v.m))
    (hl : q.level (shape v.m) = 0) (h0 : s.block i q ≠ 0) (hvars : SameVars s s')
    (hD : ∀ x, x ≠ s.block i q → s'.disk x = s.disk x) :
    Grown v ino s i s' i ∧
      ∀ p : Slot (Fin 14), p.Valid (shape v.m) → s'.block i p = s.block i p := by
  obtain ⟨_, hqm, _⟩ := hw.ok hq h0
  have hmeta : SameMeta v s s' := ⟨fun x hx => hD x fun he => hqm (he ▸ hx), hvars.fault⟩
  refine hw.same_trees hvars (hmeta.inv hw.trees.toMetaInv)
    (fun x hx hu => (hmeta.used hx).trans hu) (fun n hn => hmeta.inoBit hn)
    (fun n hn => hmeta.inode hn) (fun n hn p hp => ?_)
    fun x _ _ _ hn => hD x fun he => hn ⟨he ▸ h0, q, hq, he.symm⟩
  -- no tree changes
  have hself : update (s.inode v) ino i ino = i := update_self _ _ _
  refine hw.trees.sound.write_data (n := ino) (by rw [hself]; exact ⟨hw.live, hw.hasTree⟩) hq hl ?_
    (fun x _ hx => hD x ?_) hn hp
  · simp only [hself]
    exact h0
  · simp only [hself] at hx
    exact hx

end Steps

end BananaOS.Ext2
