import BananaOS.Ext2.Grow

/-!
# Truncating a file

`ext2_truncate` walks the tree of an inode and hands the blocks it finds to `ext2_free_block`.  What
it hands over is a list, and the list is determined by what is in the buffers, whether or not that
makes sense: the functions below are run on any healthy disk, and `Freed` says in addition what the
list means for the bitmaps when its members are blocks of the volume.
-/

namespace BananaOS.Ext2

open Function Bytes FailState BlockTree

/-! ## The nonzero values at a list of places -/

def nonzeros {α : Type} (f : α → ℕ) (l : List α) : List ℕ := (l.map f).filter (· ≠ 0)

variable {b : ℕ}

section Nonzeros

variable {α β : Type} {f : α → ℕ}

theorem nonzeros_cons_of_eq {a : α} {l : List α} (h : f a = 0) :
    nonzeros f (a :: l) = nonzeros f l := by
  simp [nonzeros, h]

theorem nonzeros_cons_of_ne {a : α} {l : List α} (h : f a ≠ 0) :
    nonzeros f (a :: l) = f a :: nonzeros f l := by
  simp [nonzeros, h]

theorem nonzeros_append (l l' : List α) :
    nonzeros f (l ++ l') = nonzeros f l ++ nonzeros f l' := by
  simp [nonzeros]

theorem nonzeros_map (g : β → α) (l : List β) : nonzeros f (l.map g) = nonzeros (f ∘ g) l := by
  simp [nonzeros]

theorem nonzeros_congr {g : α → ℕ} {l : List α} (h : ∀ a ∈ l, f a = g a) :
    nonzeros f l = nonzeros g l := by
  unfold nonzeros
  rw [List.map_congr_left h]

theorem mem_nonzeros {l : List α} : b ∈ nonzeros f l ↔ b ≠ 0 ∧ ∃ a ∈ l, f a = b := by
  simp [nonzeros, and_comm]

theorem nonzeros_eq_nil {l : List α} (h : ∀ a ∈ l, f a = 0) : nonzeros f l = [] := by
  rw [List.eq_nil_iff_forall_not_mem]
  intro b hb
  obtain ⟨h0, a, ha, rfl⟩ := mem_nonzeros.mp hb
  exact h0 (h a ha)

theorem nodup_nonzeros {l : List α} (hl : l.Nodup)
    (hinj : ∀ a ∈ l, ∀ a' ∈ l, f a ≠ 0 → f a = f a' → a = a') : (nonzeros f l).Nodup := by
  induction l with
  | nil => exact List.nodup_nil
  | cons a l ih =>
    obtain ⟨ha, hl⟩ := List.nodup_cons.mp hl
    have hrest := ih hl fun x hx x' hx' =>
      hinj x (List.mem_cons_of_mem _ hx) x' (List.mem_cons_of_mem _ hx')
    by_cases h0 : f a = 0
    · rwa [nonzeros_cons_of_eq h0]
    · rw [nonzeros_cons_of_ne h0, List.nodup_cons]
      refine ⟨fun hmem => ha ?_, hrest⟩
      obtain ⟨-, a', ha', he⟩ := mem_nonzeros.mp hmem
      have := hinj a List.mem_cons_self a' (List.mem_cons_of_mem _ ha') h0 he.symm
      rwa [this]

end Nonzeros

def entries (p : Bytes) (k : ℕ) : ℕ := rd32 p (k * 4)

def tableBlocks (v : Volume) (p : Bytes) : List ℕ :=
  nonzeros (entries p) (List.range' 0 (perBlk v.m))

/-! ## Freeing a list of blocks -/

/-- What freeing the blocks of a list leaves behind, if they are blocks of the volume. -/
structure FreedBlocks (v : Volume) (s : Fs) (l : List ℕ) (s' : Fs) : Prop where
  inv : MetaInv v s'
  data : ∀ b, ¬ v.IsAllocMeta b → s'.disk b = s.disk b
  inoBit : ∀ n, v.IsIno n → s'.inoBit v n = s.inoBit v n
  used : ∀ b < v.m.sBlocksCount, s'.used v b = true ↔ s.used v b = true ∧ b ∉ l

/-- The blocks of `l` were handed to `ext2_free_block`, one by one. -/
structure Freed (v : Volume) (s : Fs) (l : List ℕ) (s' : Fs) : Prop where
  vars : SameVars s s'
  count : s'.sFreeBlocksCount % 2 ^ 32 = (s.sFreeBlocksCount + l.length) % 2 ^ 32
  blocks : MetaInv v s → (∀ b ∈ l, b < v.m.sBlocksCount) → FreedBlocks v s l s'

section Freed

variable {v : Volume} {s s₁ s' : Fs} {l l' : List ℕ}

theorem Freed.of_buffers (s : Fs) (b1 b2 : Bytes) :
    Freed v s [] { s with blkbuf := b1, indbuf := b2 } where
  vars := ⟨rfl, rfl, rfl, rfl⟩
  count := rfl
  blocks hi _ := ⟨hi.of_disk rfl rfl, fun _ _ => rfl, fun _ _ => rfl, fun _ _ => by
    refine ⟨fun h => ⟨h, fun hm => nomatch hm⟩, fun h => h.1⟩⟩

theorem Freed.trans (h : Freed v s l s₁) (h' : Freed v s₁ l' s') : Freed v s (l ++ l') s' where
  vars := h.vars.trans h'.vars
  count := by
    have h1 := h.count
    have h2 := h'.count
    rw [List.length_append]
    omega
  blocks hi hlt := by
    obtain ⟨hi₁, hd, hb, hu⟩ := h.blocks hi fun b hb => hlt b (List.mem_append_left _ hb)
    obtain ⟨hi', hd', hb', hu'⟩ := h'.blocks hi₁ fun b hb => hlt b (List.mem_append_right _ hb)
    refine ⟨hi', fun b hm => (hd' b hm).trans (hd b hm), fun n hn => (hb' n hn).trans (hb n hn),
      fun b hlt => ?_⟩
    rw [hu' b hlt, hu b hlt, List.mem_append, not_or, and_assoc]

theorem Freed.healthy (h : Freed v s l s') (hh : ∀ b, s.fault b = none) :
    ∀ b, s'.fault b = none := by
  rw [h.vars.fault]
  exact hh

end Freed

/-! ## The walk, on any healthy disk -/

section Walk

variable {v : Volume} {s s' : Fs}

/-- What a step does that works on blocks through `ext2_blkbuf`. -/
structure BlkStep (s s' : Fs) : Prop where
  vars : SameVars s s'
  indbuf : s'.indbuf = s.indbuf
  count : s'.sFreeBlocksCount = s.sFreeBlocksCount

theorem BlkStep.trans {s₁ : Fs} (h : BlkStep s s₁) (h' : BlkStep s₁ s') : BlkStep s s' :=
  ⟨h.vars.trans h'.vars, h'.indbuf.trans h.indbuf, h'.count.trans h.count⟩

theorem editBlock_healthy (hh : ∀ b, s.fault b = none) (v : Volume) (b : ℕ) (f : Bytes → Bytes) :
    ∃ s', (readBlk v.m b >>= fun _ => editBlk f >>= fun _ => writeBlk v.m b) s = (some (), s') ∧
      BlkStep s s' := by
  unfold editBlk
  rw [bind_of_some (readBlk_healthy hh v.m b), modify_bind_run,
    writeBlk_healthy (by exact hh) v b]
  exact ⟨_, rfl, ⟨rfl, rfl, rfl, rfl⟩, rfl, rfl⟩

theorem freeBlock_healthy (hh : ∀ b, s.fault b = none) (v : Volume) (h0 : b ≠ 0) :
    ∃ s', freeBlock v.m b s = (some (), s') ∧ SameVars s s' ∧ s'.indbuf = s.indbuf ∧
      s'.sFreeBlocksCount = incr32 s.sFreeBlocksCount := by
  have hz : ¬ (v.m.mounted = false ∨ b = 0) := by
    rw [v.mounted]
    simpa using h0
  set g := b / v.m.blocksPerGroup with hg
  have hgd : readGdesc v.m g s = (some (drop (s.disk (physBlock v.m (gdescBlock v.m g)))
      (gdescOff v.m g)), { s with blkbuf := s.disk (physBlock v.m (gdescBlock v.m g)) }) := by
    unfold readGdesc
    rw [bind_of_some (readBlk_healthy hh _ _)]
    rfl
  unfold freeBlock
  rw [if_neg hz, bind_of_some hgd]
  set gd := drop (s.disk (physBlock v.m (gdescBlock v.m g))) (gdescOff v.m g) with hgdef
  obtain ⟨s₁, hrun₁, hst₁⟩ := editBlock_healthy
    (s := { s with blkbuf := s.disk (physBlock v.m (gdescBlock v.m g)) }) hh v (bgBlockBitmap gd)
    fun p => WordBitmap.clear (w := 8) p (b % v.m.blocksPerGroup)
  have hh₁ : ∀ b, s₁.fault b = none := by
    rw [hst₁.vars.fault]
    exact hh
  obtain ⟨s₂, hrun₂, hst₂⟩ := editBlock_healthy hh₁ v (gdescBlock v.m g)
    fun p => copyIn p (gdescOff v.m g) 32 (wr16 gd 12 (bgFreeBlocksCount gd + 1))
  have hst := hst₁.trans hst₂
  rw [bind_of_some (show bitmapClear v.m (bgBlockBitmap gd) _ _ = _ from hrun₁),
    bind_of_some (show writeGdesc v.m g _ _ = _ from hrun₂), modify_bind_run, attempt_bind_run]
  unfold writeSuperblock
  rw [show (({ s₂ with sFreeBlocksCount := incr32 s₂.sFreeBlocksCount } : Fs).fault (sbBlock v.m)) =
    none by
      show s₂.fault _ = none
      rw [hst₂.vars.fault]
      exact hh₁ _]
  refine ⟨_, rfl, ⟨hst.vars.fault, hst.vars.dcache, hst.vars.dcacheNext, hst.vars.now⟩,
    hst.indbuf, ?_⟩
  exact congrArg incr32 hst.count

theorem dropBlock_spec (hh : ∀ b, s.fault b = none) (h0 : b ≠ 0) :
    ∃ s', dropBlock v.m b s = (some (), s') ∧ s'.indbuf = s.indbuf ∧ Freed v s [b] s' := by
  obtain ⟨s', hrun, hvars, hind, hcount⟩ := freeBlock_healthy hh v h0
  refine ⟨s', ?_, hind, hvars, ?_, fun hi hlt => ?_⟩
  · unfold dropBlock
    rw [attempt_bind_run, hrun]
    rfl
  · rw [hcount]
    unfold incr32
    rw [Nat.mod_mod]
    rfl
  · obtain ⟨s'', hrun', hf⟩ := freeBlock_spec hi h0 (hlt b (List.mem_singleton.mpr rfl))
    obtain rfl : s' = s'' := congrArg Prod.snd (hrun.symm.trans hrun')
    refine ⟨hf.step.inv, hf.step.data, hf.inoBit, fun x hx => ?_⟩
    rw [hf.used x hx]
    simp only [Bool.and_eq_true, Bool.not_eq_true', decide_eq_false_iff_not, List.mem_singleton]
    exact and_comm

theorem truncEntries_spec : ∀ (n k : ℕ) {s : Fs}, (∀ b, s.fault b = none) →
    ∃ s', truncEntries v.m n k s = (some (nonzeros (entries s.indbuf) (List.range' k n)), s') ∧
      s'.indbuf = s.indbuf ∧ Freed v s (nonzeros (entries s.indbuf) (List.range' k n)) s' := by
  intro n
  induction n with
  | zero => exact fun k s _ => ⟨s, rfl, rfl, Freed.of_buffers s s.blkbuf s.indbuf⟩
  | succ n ih =>
    intro k s hh
    rw [truncEntries, gets_bind_run, List.range'_succ]
    by_cases h0 : entries s.indbuf k = 0
    · rw [nonzeros_cons_of_eq h0, if_pos (show rd32 s.indbuf (k * 4) = 0 from h0)]
      exact ih (k + 1) hh
    · rw [nonzeros_cons_of_ne h0, if_neg (show ¬ rd32 s.indbuf (k * 4) = 0 from h0)]
      obtain ⟨s₁, hrun₁, hind₁, hf₁⟩ := dropBlock_spec (v := v) hh h0
      obtain ⟨s₂, hrun₂, hind₂, hf₂⟩ := ih (k + 1) (hf₁.healthy hh)
      rw [hind₁] at hrun₂ hind₂ hf₂
      refine ⟨s₂, ?_, hind₂, hf₁.trans hf₂⟩
      rw [bind_of_some (show dropBlock v.m (rd32 s.indbuf (k * 4)) s = _ from hrun₁),
        bind_of_some hrun₂]
      rfl

theorem truncTable_spec (hh : ∀ b, s.fault b = none) (t : ℕ) :
    ∃ s', truncTable v.m t s =
        (some (tableBlocks v (s.disk (physBlock v.m t))), s') ∧
      s'.indbuf = s.disk (physBlock v.m t) ∧
      Freed v s (tableBlocks v (s.disk (physBlock v.m t))) s' := by
  obtain ⟨s', hrun, hind, hf⟩ := truncEntries_spec (v := v) (perBlk v.m) 0
    (s := { s with indbuf := s.disk (physBlock v.m t) }) hh
  refine ⟨s', ?_, hind, (Freed.of_buffers s s.blkbuf _).trans hf⟩
  unfold truncTable
  rw [attempt_bind_run, readInd_healthy hh]
  exact hrun

/-! ### The table of tables -/

theorem truncTables_skip {m : Mount} : ∀ (d n k : ℕ),
    (∀ j, k ≤ j → j < k + d → entries s.indbuf j = 0) →
      truncTables m (d + n) k s = truncTables m n (k + d) s := by
  intro d
  induction d with
  | zero =>
    intro n k _
    rw [Nat.zero_add, Nat.add_zero]
  | succ d ih =>
    intro n k h
    have hk : rd32 s.indbuf (k * 4) = 0 := h k (le_refl k) (by omega)
    rw [show d + 1 + n = (d + n) + 1 by omega, truncTables, gets_bind_run, if_pos hk,
      ih n (k + 1) fun j h1 h2 => h j (by omega) (by omega), show k + 1 + d = k + (d + 1) by omega]

theorem exists_first {f : ℕ → ℕ} : ∀ (n k : ℕ), (∀ j, k ≤ j → j < k + n → f j = 0) ∨
    ∃ j, k ≤ j ∧ j < k + n ∧ f j ≠ 0 ∧ ∀ j', k ≤ j' → j' < j → f j' = 0 := by
  intro n
  induction n with
  | zero => exact fun k => .inl fun j h1 h2 => absurd h1 (by omega)
  | succ n ih =>
    intro k
    by_cases h0 : f k = 0
    · have hlater : ∀ {j}, k ≤ j → (k + 1 ≤ j → f j = 0) → f j = 0 := by
        intro j hj h
        rcases Nat.eq_or_lt_of_le hj with rfl | hlt
        · exact h0
        · exact h hlt
      rcases ih (k + 1) with h | ⟨j, h1, h2, h3, h4⟩
      · exact .inl fun j hj hlt => hlater hj fun h' => h j h' (by omega)
      · exact .inr ⟨j, by omega, by omega, h3, fun j' hj' hlt => hlater hj' fun h' => h4 j' h' hlt⟩
    · exact .inr ⟨k, le_refl k, by omega, h0, fun j' h1 h2 => absurd h1 (by omega)⟩

theorem truncTables_spec : ∀ (n k : ℕ) {s : Fs}, (∀ b, s.fault b = none) →
    ∃ l s', truncTables v.m n k s = (some l, s') ∧ Freed v s l s' := by
  intro n
  induction n with
  | zero => exact fun k s _ => ⟨[], s, rfl, Freed.of_buffers s s.blkbuf s.indbuf⟩
  | succ n ih =>
    intro k s hh
    rw [truncTables, gets_bind_run]
    by_cases h0 : rd32 s.indbuf (k * 4) = 0
    · rw [if_pos h0]
      exact ih (k + 1) hh
    · rw [if_neg h0]
      obtain ⟨s₁, hrun₁, _, hf₁⟩ := truncTable_spec (v := v) hh (rd32 s.indbuf (k * 4))
      obtain ⟨s₂, hrun₂, _, hf₂⟩ := dropBlock_spec (v := v) (hf₁.healthy hh) h0
      have hf₁₂ := hf₁.trans hf₂
      obtain ⟨l, s₃, hrun₃, hf₃⟩ := ih (k + 1) (hf₁₂.healthy hh)
      refine ⟨_, s₃, ?_, hf₁₂.trans hf₃⟩
      rw [bind_of_some hrun₁, bind_of_some hrun₂, bind_of_some hrun₃, List.append_assoc]
      rfl

theorem truncTables_first {n k : ℕ} (hh : ∀ b, s.fault b = none)
    (h0 : entries s.indbuf k ≠ 0) :
    ∃ rest s', truncTables v.m (n + 1) k s =
        (some (tableBlocks v (s.disk (physBlock v.m (entries s.indbuf k))) ++
          entries s.indbuf k :: rest), s') ∧
      Freed v s (tableBlocks v (s.disk (physBlock v.m (entries s.indbuf k))) ++
        entries s.indbuf k :: rest) s' ∧
      (((∀ j, k + 1 ≤ j → j < k + 1 + n →
          entries (s.disk (physBlock v.m (entries s.indbuf k))) j = 0) ∧ rest = []) ∨
        ∃ j, k + 1 ≤ j ∧ j < k + 1 + n ∧
          entries (s.disk (physBlock v.m (entries s.indbuf k))) j ≠ 0 ∧
          entries (s.disk (physBlock v.m (entries s.indbuf k))) j ∈ rest) := by
  set T := s.disk (physBlock v.m (entries s.indbuf k)) with hT
  obtain ⟨s₁, hrun₁, hind₁, hf₁⟩ := truncTable_spec (v := v) hh (entries s.indbuf k)
  obtain ⟨s₂, hrun₂, hind₂, hf₂⟩ := dropBlock_spec (v := v) (hf₁.healthy hh) h0
  have hf₁₂ := hf₁.trans hf₂
  have hbuf : s₂.indbuf = T := hind₂.trans hind₁
  -- the rest of the loop, with what is known of its list
  have hrest : ∃ rest s', truncTables v.m n (k + 1) s₂ = (some rest, s') ∧ Freed v s₂ rest s' ∧
      (((∀ j, k + 1 ≤ j → j < k + 1 + n → entries T j = 0) ∧ rest = []) ∨
        ∃ j, k + 1 ≤ j ∧ j < k + 1 + n ∧ entries T j ≠ 0 ∧ entries T j ∈ rest) := by
    rcases exists_first (f := entries T) n (k + 1) with hzero | ⟨j, h1, h2, h3, h4⟩
    · refine ⟨[], s₂, ?_, Freed.of_buffers s₂ s₂.blkbuf s₂.indbuf, .inl ⟨hzero, rfl⟩⟩
      have := truncTables_skip (m := v.m) (s := s₂) n 0 (k + 1) (by rw [hbuf]; exact hzero)
      rw [Nat.add_zero] at this
      exact this
    · obtain ⟨d, rfl⟩ := Nat.exists_eq_add_of_le h1
      obtain ⟨e, he⟩ := Nat.exists_eq_add_of_lt h2
      obtain rfl : n = d + (e + 1) := by omega
      rw [truncTables_skip d (e + 1) (k + 1) (by rw [hbuf]; exact fun j' h h' => h4 j' h h')]
      -- the entry at `k + 1 + d` is taken for a table
      have h3' : rd32 s₂.indbuf ((k + 1 + d) * 4) ≠ 0 := by
        rw [hbuf]
        exact h3
      have hh₂ := hf₁₂.healthy hh
      obtain ⟨s₃, hrun₃, _, hf₃⟩ := truncTable_spec (v := v) hh₂
        (rd32 s₂.indbuf ((k + 1 + d) * 4))
      obtain ⟨s₄, hrun₄, _, hf₄⟩ := dropBlock_spec (v := v) (hf₃.healthy hh₂) h3'
      obtain ⟨l, s₅, hrun₅, hf₅⟩ := truncTables_spec (v := v) e (k + 1 + d + 1)
        ((hf₃.trans hf₄).healthy hh₂)
      refine ⟨_, s₅, ?_, (hf₃.trans hf₄).trans hf₅, .inr ⟨k + 1 + d, h1, h2, h3, ?_⟩⟩
      · rw [truncTables, gets_bind_run, if_neg h3', bind_of_some hrun₃, bind_of_some hrun₄,
          bind_of_some hrun₅, List.append_assoc]
        rfl
      · rw [hbuf]
        exact List.mem_append_left _ (List.mem_append_right _ (List.mem_singleton.mpr rfl))
  obtain ⟨rest, s', hrun₃, hf₃, hcase⟩ := hrest
  have hlist : tableBlocks v T ++ entries s.indbuf k :: rest =
      (tableBlocks v T ++ [entries s.indbuf k]) ++ rest := by
    rw [List.append_assoc]
    rfl
  refine ⟨rest, s', ?_, by rw [hlist]; exact hf₁₂.trans hf₃, hcase⟩
  rw [truncTables, gets_bind_run, if_neg (show ¬ rd32 s.indbuf (k * 4) = 0 from h0),
    bind_of_some (show truncTable v.m (rd32 s.indbuf (k * 4)) s = _ from hrun₁),
    bind_of_some (show dropBlock v.m (rd32 s.indbuf (k * 4)) s₁ = _ from hrun₂),
    bind_of_some hrun₃]
  rfl

/-! ### The pointers of the inode -/

variable {i i' : Inode}

/-- The pointers of `i` where `P` holds have been cleared, and nothing else. -/
structure Cleared (P : Fin 15 → Prop) [DecidablePred P] (i i' : Inode) : Prop where
  ptr : ∀ k, i'.ptr k = if P k then 0 else i.ptr k
  record : i' = { i with block := i'.block }

theorem Cleared.trans {P Q R : Fin 15 → Prop} [DecidablePred P] [DecidablePred Q]
    [DecidablePred R] {i'' : Inode} (h : Cleared P i i') (h' : Cleared Q i' i'')
    (hR : ∀ k, R k ↔ P k ∨ Q k) : Cleared R i i'' where
  ptr k := by
    rw [h'.ptr k, h.ptr k]
    by_cases hp : P k
    · rw [if_pos hp, ite_self, if_pos ((hR k).mpr (.inl hp))]
    · by_cases hq : Q k
      · rw [if_pos hq, if_pos ((hR k).mpr (.inr hq))]
      · rw [if_neg hq, if_neg hp, if_neg fun hr => ((hR k).mp hr).elim hp hq]
  record := by
    have h1 := h.record
    have h2 := h'.record
    rw [h1] at h2
    exact h2

theorem cleared_refl {P : Fin 15 → Prop} [DecidablePred P] (h : ∀ k, P k → i.ptr k = 0) :
    Cleared P i i where
  ptr k := by
    by_cases hp : P k
    · rw [if_pos hp, h k hp]
    · rw [if_neg hp]
  record := rfl

theorem cleared_setPtr (k : Fin 15) : Cleared (· = k) i (i.setPtr k 0) where
  ptr j := by
    show (update i.block k (BitVec.ofNat 32 0) j).toNat = _
    by_cases hj : j = k
    · rw [hj, update_self, if_pos rfl]
      rfl
    · rw [update_of_ne hj, if_neg hj]
      rfl
  record := rfl

theorem truncDirect_spec : ∀ (n k : ℕ) {s : Fs} {i : Inode}, (∀ b, s.fault b = none) →
    k + n ≤ 15 → ∃ s' i', truncDirect v.m n k i s =
        (some (nonzeros (fun j => i.ptr (Fin.ofNat 15 j)) (List.range' k n), i'), s') ∧
      Freed v s (nonzeros (fun j => i.ptr (Fin.ofNat 15 j)) (List.range' k n)) s' ∧
      Cleared (fun j => k ≤ j.val ∧ j.val < k + n) i i' := by
  intro n
  induction n with
  | zero =>
    intro k s i _ _
    exact ⟨s, i, rfl, Freed.of_buffers s s.blkbuf s.indbuf,
      cleared_refl fun j hj => absurd hj.1 (by omega)⟩
  | succ n ih =>
    intro k s i hh hle
    have hval : (Fin.ofNat 15 k).val = k := Nat.mod_eq_of_lt (by omega)
    rw [truncDirect, List.range'_succ]
    by_cases h0 : i.ptr (Fin.ofNat 15 k) = 0
    · rw [if_pos h0, nonzeros_cons_of_eq (f := fun j => i.ptr (Fin.ofNat 15 j)) h0]
      obtain ⟨s', i', hrun, hf, hc⟩ := ih (k + 1) (s := s) (i := i) hh (by omega)
      refine ⟨s', i', hrun, hf, (cleared_refl (P := (· = Fin.ofNat 15 k)) ?_).trans hc ?_⟩
      · rintro j rfl
        exact h0
      · intro j
        rw [Fin.ext_iff, hval]
        omega
    · obtain ⟨s₁, hrun₁, _, hf₁⟩ := dropBlock_spec (v := v) hh h0
      obtain ⟨s', i', hrun, hf, hc⟩ := ih (k + 1) (i := i.setPtr (Fin.ofNat 15 k) 0)
        (hf₁.healthy hh) (by omega)
      -- the pointers still to come are those of the inode before
      have hsame : nonzeros (fun j => (i.setPtr (Fin.ofNat 15 k) 0).ptr (Fin.ofNat 15 j))
          (List.range' (k + 1) n) =
          nonzeros (fun j => i.ptr (Fin.ofNat 15 j)) (List.range' (k + 1) n) := by
        refine nonzeros_congr fun j hj => ?_
        rw [List.mem_range'_1] at hj
        have hne : Fin.ofNat 15 j ≠ Fin.ofNat 15 k := fun he => by
          have := congrArg Fin.val he
          simp only [Fin.val_ofNat] at this
          omega
        rw [(cleared_setPtr (Fin.ofNat 15 k)).ptr, if_neg hne]
      rw [hsame] at hrun hf
      refine ⟨s', i', ?_, ?_, (cleared_setPtr (Fin.ofNat 15 k)).trans hc fun j => ?_⟩
      · rw [if_neg h0, bind_of_some hrun₁, bind_of_some hrun,
          nonzeros_cons_of_ne (f := fun j => i.ptr (Fin.ofNat 15 j)) h0]
        rfl
      · rw [nonzeros_cons_of_ne (f := fun j => i.ptr (Fin.ofNat 15 j)) h0]
        exact hf₁.trans hf
      · rw [Fin.ext_iff, hval]
        omega

theorem truncSingle_spec (hh : ∀ b, s.fault b = none) (i : Inode) :
    ∃ l s' i', truncSingle v.m i s = (some (l, i'), s') ∧ Freed v s l s' ∧
      Cleared (· = 12) i i' ∧
      l = if i.ptr 12 = 0 then [] else
        tableBlocks v (s.disk (physBlock v.m (i.ptr 12))) ++ [i.ptr 12] := by
  unfold truncSingle
  by_cases h0 : i.ptr 12 = 0
  · rw [if_pos h0, if_pos h0]
    exact ⟨[], s, i, rfl, Freed.of_buffers s s.blkbuf s.indbuf,
      cleared_refl fun k hk => hk ▸ h0, rfl⟩
  · obtain ⟨s₁, hrun₁, _, hf₁⟩ := truncTable_spec (v := v) hh (i.ptr 12)
    obtain ⟨s₂, hrun₂, _, hf₂⟩ := dropBlock_spec (v := v) (hf₁.healthy hh) h0
    rw [if_neg h0, if_neg h0, bind_of_some hrun₁, bind_of_some hrun₂]
    exact ⟨_, s₂, _, rfl, hf₁.trans hf₂, cleared_setPtr 12, rfl⟩

/-- What the walk over the table of tables `t` frees: nothing but `t` if the table is empty, and
otherwise the first inner table and what is in it, and then whatever the loop finds as it goes on
behind place `k` of that inner table. -/
def OuterFreed (v : Volume) (D : ℕ → Bytes) (t : ℕ) (l : List ℕ) : Prop :=
  ((∀ j < perBlk v.m, entries (D (physBlock v.m t)) j = 0) ∧ l = [t]) ∨
  ∃ k < perBlk v.m, entries (D (physBlock v.m t)) k ≠ 0 ∧
    ∃ rest, l = tableBlocks v (D (physBlock v.m (entries (D (physBlock v.m t)) k))) ++
        entries (D (physBlock v.m t)) k :: rest ++ [t] ∧
      (((∀ j, k < j → j < perBlk v.m →
          entries (D (physBlock v.m (entries (D (physBlock v.m t)) k))) j = 0) ∧ rest = []) ∨
        ∃ j, k < j ∧ j < perBlk v.m ∧
          entries (D (physBlock v.m (entries (D (physBlock v.m t)) k))) j ≠ 0 ∧
          entries (D (physBlock v.m (entries (D (physBlock v.m t)) k))) j ∈ rest)

theorem truncDouble_spec (hh : ∀ b, s.fault b = none) (i : Inode) :
    ∃ l s' i', truncDouble v.m i s = (some (l, i'), s') ∧ Freed v s l s' ∧
      Cleared (· = 13) i i' ∧
      ((i.ptr 13 = 0 ∧ l = []) ∨ (i.ptr 13 ≠ 0 ∧ OuterFreed v s.disk (i.ptr 13) l)) := by
  unfold truncDouble
  by_cases h0 : i.ptr 13 = 0
  · rw [if_pos h0]
    exact ⟨[], s, i, rfl, Freed.of_buffers s s.blkbuf s.indbuf,
      cleared_refl fun k hk => hk ▸ h0, .inl ⟨h0, rfl⟩⟩
  · set T := s.disk (physBlock v.m (i.ptr 13)) with hT
    have hh₀ : ∀ b, ({ s with indbuf := T } : Fs).fault b = none := hh
    have hbuf : Freed v s [] { s with indbuf := T } := Freed.of_buffers s s.blkbuf T
    -- the loop, up to the first inner table and on from there
    have hloop : ∃ l s', truncOuter v.m (i.ptr 13) s = (some l, s') ∧ Freed v s l s' ∧
        OuterFreed v s.disk (i.ptr 13) (l ++ [i.ptr 13]) := by
      unfold truncOuter
      rw [attempt_bind_run, readInd_healthy hh]
      rcases exists_first (f := entries T) (perBlk v.m) 0 with hzero | ⟨k, -, hk, hk0, hbefore⟩
      · refine ⟨[], { s with indbuf := T }, ?_, hbuf, .inl ⟨fun j hj => ?_, rfl⟩⟩
        · have := truncTables_skip (m := v.m) (s := { s with indbuf := T }) (perBlk v.m) 0 0 hzero
          rw [Nat.add_zero] at this
          exact this
        · exact hzero j (Nat.zero_le j) (by omega)
      · rw [Nat.zero_add] at hk
        obtain ⟨n, hn⟩ := Nat.exists_eq_add_of_lt hk
        obtain ⟨rest, s', hrun, hf, hcase⟩ := truncTables_first (v := v) (n := n) (k := k) hh₀ hk0
        refine ⟨_, s', ?_, hbuf.trans hf, .inr ⟨k, hk, hk0, rest, rfl, ?_⟩⟩
        · have hskip := truncTables_skip (m := v.m) (s := { s with indbuf := T }) k (n + 1) 0
            fun j h1 h2 => hbefore j h1 (by omega)
          rw [show k + (n + 1) = perBlk v.m by omega, Nat.zero_add] at hskip
          exact hskip.trans hrun
        · refine hcase.imp (fun h => ⟨fun j h1 h2 => h.1 j (by omega) (by omega), h.2⟩) ?_
          rintro ⟨j, h1, h2, h3, h4⟩
          exact ⟨j, by omega, by omega, h3, h4⟩
    obtain ⟨l, s₁, hrun₁, hf₁, hl⟩ := hloop
    obtain ⟨s₂, hrun₂, _, hf₂⟩ := dropBlock_spec (v := v) (hf₁.healthy hh) h0
    rw [if_neg h0, bind_of_some hrun₁, bind_of_some hrun₂]
    exact ⟨_, s₂, _, rfl, hf₁.trans hf₂, cleared_setPtr 13, .inr ⟨h0, hl⟩⟩

theorem truncBlocks_spec (hh : ∀ b, s.fault b = none) (i : Inode) :
    ∃ l₁ l₂ l₃ s₁ s₂ s' i', truncBlocks v.m i s = (some (l₁ ++ l₂ ++ l₃, i'), s') ∧
      Freed v s l₁ s₁ ∧ Freed v s₁ l₂ s₂ ∧ Freed v s₂ l₃ s' ∧
      Cleared (fun k => k.val < 14) i i' ∧
      l₁ = nonzeros (fun j => i.ptr (Fin.ofNat 15 j)) (List.range' 0 12) ∧
      (l₂ = if i.ptr 12 = 0 then [] else
        tableBlocks v (s₁.disk (physBlock v.m (i.ptr 12))) ++ [i.ptr 12]) ∧
      ((i.ptr 13 = 0 ∧ l₃ = []) ∨ (i.ptr 13 ≠ 0 ∧ OuterFreed v s₂.disk (i.ptr 13) l₃)) := by
  obtain ⟨s₁, i₁, hrun₁, hf₁, hc₁⟩ := truncDirect_spec (v := v) 12 0 (i := i) hh (by decide)
  obtain ⟨l₂, s₂, i₂, hrun₂, hf₂, hc₂, hl₂⟩ := truncSingle_spec (v := v) (hf₁.healthy hh) i₁
  obtain ⟨l₃, s₃, i₃, hrun₃, hf₃, hc₃, hl₃⟩ :=
    truncDouble_spec (v := v) (hf₂.healthy (hf₁.healthy hh)) i₂
  -- the two table pointers are as they were when their turn comes
  have h12 : i₁.ptr 12 = i.ptr 12 := (hc₁.ptr 12).trans (if_neg (by decide))
  have h13 : i₂.ptr 13 = i.ptr 13 :=
    ((hc₂.ptr 13).trans (if_neg (by decide))).trans ((hc₁.ptr 13).trans (if_neg (by decide)))
  rw [h12] at hl₂
  rw [h13] at hl₃
  have hc : Cleared (fun k => k.val < 14) i i₃ := by
    refine (hc₁.trans (R := fun k => k.val < 13) hc₂ ?_).trans hc₃ ?_
    · decide
    · decide
  refine ⟨_, l₂, l₃, s₁, s₂, s₃, i₃, ?_, hf₁, hf₂, hf₃, hc, rfl, hl₂, hl₃⟩
  exact (bind_of_some hrun₁).trans ((bind_of_some hrun₂).trans (bind_of_some hrun₃))

end Walk

end BananaOS.Ext2
