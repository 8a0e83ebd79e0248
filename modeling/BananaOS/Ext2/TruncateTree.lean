import BananaOS.Ext2.Truncate

/-!
# When truncating is clean

`CleanTruncate` is what `ext2_truncate` is for: every block reachable from the inode is freed, once,
no other block is, the counter agrees, and the record is left without length and pointers.
-/

namespace BananaOS.Ext2

open Bytes FailState BlockTree

def Fs.Reach (s : Fs) (v : Volume) (n b : ℕ) : Prop :=
  (s.inode v n).HasTree ∧ s.Holds v (s.inode v n) b

def CleanTruncate (v : Volume) (s : Fs) (ino : ℕ) : Prop :=
  ∃ freed s', truncateFreed v.m ino s = (some freed, s') ∧
    freed.Nodup ∧ (∀ b, b ∈ freed ↔ s.Reach v ino b) ∧
    (∀ b < v.m.sBlocksCount, s'.used v b = true ↔ s.used v b = true ∧ ¬ s.Reach v ino b) ∧
    (∀ b < v.m.sBlocksCount, (v.IsMeta b ∨ ∃ n, s.Live v n ∧ n ≠ ino ∧ s.Reach v n b) →
      s'.used v b = true) ∧
    s'.sFreeBlocksCount % 2 ^ 32 =
      (s.sFreeBlocksCount + {b | s.Reach v ino b}.ncard) % 2 ^ 32 ∧
    (s'.inode v ino).size = 0 ∧ ∀ k, (s'.inode v ino).ptr k = 0

/-- The table of tables has at most one entry, and the inner table behind it has no entry at a place
after that one. -/
def OuterSafe (v : Volume) (s : Fs) (i : Inode) : Prop :=
  ∀ k < perBlk v.m, s.block i (.entry (.root 13) k) ≠ 0 →
    (∀ k' < perBlk v.m, s.block i (.entry (.root 13) k') ≠ 0 → k' = k) ∧
    ∀ j < perBlk v.m, k < j → s.block i (.entry (.entry (.root 13) k) j) = 0

/-- **The condition.**  With a tree, the loop over the table of tables is not led astray by the
buffer it shares with the inner loop, and the pointer the driver does not know is not in use.
Without a tree, nothing is in the pointers. -/
def TruncSafe (v : Volume) (s : Fs) (i : Inode) : Prop :=
  (i.HasTree → OuterSafe v s i ∧ i.ptr 14 = 0) ∧ (¬ i.HasTree → ∀ k, i.ptr k = 0)

variable {v : Volume} {s s' : Fs} {ino : ℕ} {i : Inode}

/-! ## The walk on slots -/

def directSlots : List (Slot (Fin 14)) := (List.range' 0 12).map fun j => .root (Fin.ofNat 14 j)

def tableSlots (v : Volume) (p : Slot (Fin 14)) : List (Slot (Fin 14)) :=
  (List.range' 0 (perBlk v.m)).map (.entry p) ++ [p]

variable {p q : Slot (Fin 14)} {D : ℕ → Bytes} {k n b : ℕ}

theorem mem_tableSlots : q ∈ tableSlots v p ↔ (∃ j < perBlk v.m, q = .entry p j) ∨ q = p := by
  unfold tableSlots
  rw [List.mem_append, List.mem_map, List.mem_singleton]
  refine or_congr_left ⟨?_, ?_⟩
  · rintro ⟨j, hj, rfl⟩
    rw [List.mem_range'_1] at hj
    exact ⟨j, by omega, rfl⟩
  · rintro ⟨j, hj, rfl⟩
    exact ⟨j, List.mem_range'_1.mpr ⟨Nat.zero_le j, by omega⟩, rfl⟩

theorem entry_ne_self (p : Slot (Fin 14)) (k : ℕ) : Slot.entry p k ≠ p := by
  intro h
  have := congrArg sizeOf h
  simp at this
  omega

theorem nodup_tableSlots (p : Slot (Fin 14)) : (tableSlots v p).Nodup := by
  unfold tableSlots
  refine List.Nodup.append (List.Nodup.map (fun j j' h => (Slot.entry.inj h).2) List.nodup_range')
    (List.nodup_singleton p) fun q hq hq' => ?_
  obtain ⟨j, -, rfl⟩ := List.mem_map.mp hq
  exact entry_ne_self p j (List.mem_singleton.mp hq')

theorem mem_directSlots : q ∈ directSlots ↔ ∃ r : Fin 14, r.val < 12 ∧ q = .root r := by
  unfold directSlots
  rw [List.mem_map]
  constructor
  · rintro ⟨j, hj, rfl⟩
    rw [List.mem_range'_1] at hj
    refine ⟨Fin.ofNat 14 j, ?_, rfl⟩
    rw [Fin.val_ofNat]
    omega
  · rintro ⟨r, hr, rfl⟩
    refine ⟨r.val, List.mem_range'_1.mpr ⟨Nat.zero_le _, by omega⟩, congrArg Slot.root ?_⟩
    exact Fin.ext (Nat.mod_eq_of_lt r.isLt)

theorem nodup_directSlots : directSlots.Nodup := by
  decide

theorem Writing.table (hw : Writing v s ino i) (hp : p.Valid (shape v.m))
    (h0 : s.block i p ≠ 0) (hD : ∀ b, ¬ v.IsAllocMeta b → D b = s.disk b) (j : ℕ) :
    entries (D (physBlock v.m (s.block i p))) j = s.block i (.entry p j) := by
  obtain ⟨hlt, hm, -⟩ := hw.ok hp h0
  rw [v.physBlock_of_lt hlt, hD _ fun h => hm (.inl h)]
  exact (Fs.block_entry_of_ne h0).symm

theorem Writing.tableBlocks_append (hw : Writing v s ino i)
    (hp : p.Valid (shape v.m)) (h0 : s.block i p ≠ 0)
    (hD : ∀ b, ¬ v.IsAllocMeta b → D b = s.disk b) :
    tableBlocks v (D (physBlock v.m (s.block i p))) ++ [s.block i p] =
      nonzeros (s.block i) (tableSlots v p) := by
  unfold tableSlots tableBlocks
  rw [nonzeros_append, nonzeros_map, nonzeros_cons_of_ne h0]
  exact congrArg (· ++ [s.block i p]) (nonzeros_congr fun j _ => hw.table hp h0 hD j)

theorem nonzeros_tableSlots_of_eq (h0 : s.block i p = 0) :
    nonzeros (s.block i) (tableSlots v p) = [] := by
  refine nonzeros_eq_nil fun q hq => ?_
  rcases mem_tableSlots.mp hq with ⟨j, -, rfl⟩ | rfl
  · exact Fs.block_entry_of_eq h0
  · exact h0

theorem Writing.nonzeros_lt (hw : Writing v s ino i) {S : List (Slot (Fin 14))}
    (hS : ∀ q ∈ S, q.Valid (shape v.m)) : ∀ b ∈ nonzeros (s.block i) S, b < v.m.sBlocksCount := by
  intro b hb
  obtain ⟨h0, q, hq, rfl⟩ := mem_nonzeros.mp hb
  exact (hw.ok (hS q hq) h0).1

theorem directSlots_valid : ∀ q ∈ directSlots, q.Valid (shape v.m) := by
  intro q hq
  obtain ⟨r, -, rfl⟩ := mem_directSlots.mp hq
  trivial

theorem tableSlots_valid (hp : p.Valid (shape v.m))
    (hl : 0 < p.level (shape v.m)) : ∀ q ∈ tableSlots v p, q.Valid (shape v.m) := by
  intro q hq
  rcases mem_tableSlots.mp hq with ⟨j, hj, rfl⟩ | rfl
  · exact ⟨hp, hl, hj⟩
  · exact hp

/-! ## The list of slots -/

def baseSlots (v : Volume) : List (Slot (Fin 14)) := directSlots ++ tableSlots v (.root 12)

theorem mem_baseSlots :
    q ∈ baseSlots v ↔ (∃ r, r ≠ 13 ∧ q = .root r) ∨ ∃ j < perBlk v.m, q = .entry (.root 12) j := by
  unfold baseSlots
  rw [List.mem_append, mem_directSlots, mem_tableSlots]
  constructor
  · rintro (⟨r, hr, rfl⟩ | hj | rfl)
    · exact .inl ⟨r, fun h => absurd hr (by rw [h]; decide), rfl⟩
    · exact .inr hj
    · exact .inl ⟨12, by decide, rfl⟩
  · rintro (⟨r, hr, rfl⟩ | hj)
    · by_cases h : r.val < 12
      · exact .inl ⟨r, h, rfl⟩
      · have h13 : r.val ≠ 13 := fun h => hr (Fin.ext h)
        have hlt := r.isLt
        exact .inr (.inr (congrArg Slot.root (Fin.ext (by show r.val = 12; omega))))
    · exact .inr (.inl hj)

theorem nodup_baseSlots : (baseSlots v).Nodup := by
  refine List.Nodup.append nodup_directSlots (nodup_tableSlots _) fun q hq hq' => ?_
  obtain ⟨r, hr, rfl⟩ := mem_directSlots.mp hq
  rcases mem_tableSlots.mp hq' with ⟨j, -, h⟩ | h
  · cases h
  · cases h
    exact absurd hr (by decide)

theorem baseSlots_valid : ∀ q ∈ baseSlots v, q.Valid (shape v.m) := by
  intro q hq
  rcases List.mem_append.mp hq with h | h
  · exact directSlots_valid q h
  · exact tableSlots_valid (p := .root 12) trivial Nat.one_pos q h

/-- What it visits of the double-indirect tree when the inner table behind entry `k` is the only one
it meets. -/
def outerSlots (v : Volume) (k : ℕ) : List (Slot (Fin 14)) :=
  tableSlots v (.entry (.root 13) k) ++ [.root 13]

theorem mem_outerSlots :
    q ∈ outerSlots v k ↔ (∃ j < perBlk v.m, q = .entry (.entry (.root 13) k) j) ∨
      q = .entry (.root 13) k ∨ q = .root 13 := by
  unfold outerSlots
  rw [List.mem_append, mem_tableSlots, List.mem_singleton, or_assoc]

theorem nodup_outerSlots (k : ℕ) : (outerSlots v k).Nodup := by
  refine List.Nodup.append (nodup_tableSlots _) (List.nodup_singleton _) fun q hq hq' => ?_
  rw [List.mem_singleton.mp hq'] at hq
  rcases mem_tableSlots.mp hq with ⟨j, -, h⟩ | h
  · cases h
  · cases h

theorem outerSlots_valid (hk : k < perBlk v.m) : ∀ q ∈ outerSlots v k, q.Valid (shape v.m) := by
  intro q hq
  rcases mem_outerSlots.mp hq with ⟨j, hj, rfl⟩ | rfl | rfl
  · exact double_valid hk hj
  · exact inner_valid hk
  · trivial

theorem base_outer_disjoint : ∀ q ∈ baseSlots v, q ∉ outerSlots v k := by
  intro q hq hq'
  rcases mem_baseSlots.mp hq with ⟨r, hr, rfl⟩ | ⟨j, -, rfl⟩
  · rcases mem_outerSlots.mp hq' with ⟨j, -, h⟩ | h | h
    · cases h
    · cases h
    · exact hr (Slot.root.inj h)
  · rcases mem_outerSlots.mp hq' with ⟨j', -, h⟩ | h | h
    · cases h
    · cases h
    · cases h

theorem Writing.base_eq (hw : Writing v s ino i) (hD : ∀ b, ¬ v.IsAllocMeta b → D b = s.disk b) :
    nonzeros (fun j => i.ptr (Fin.ofNat 15 j)) (List.range' 0 12) ++
      (if i.ptr 12 = 0 then [] else tableBlocks v (D (physBlock v.m (i.ptr 12))) ++ [i.ptr 12]) =
      nonzeros (s.block i) (baseSlots v) := by
  unfold baseSlots
  rw [nonzeros_append]
  refine congrArg₂ (· ++ ·) ?_ ?_
  · unfold directSlots
    rw [nonzeros_map]
    refine nonzeros_congr fun j hj => congrArg i.ptr (Fin.ext ?_)
    rw [List.mem_range'_1] at hj
    show j % 15 = j % 14
    rw [Nat.mod_eq_of_lt (by omega), Nat.mod_eq_of_lt (by omega)]
  · by_cases h0 : i.ptr 12 = 0
    · rw [if_pos h0]
      exact (nonzeros_tableSlots_of_eq (p := .root 12) h0).symm
    · rw [if_neg h0]
      exact hw.tableBlocks_append (p := .root 12) trivial h0 hD

theorem Writing.outer_or_none (hw : Writing v s ino i)
    (hD : ∀ b, ¬ v.IsAllocMeta b → D b = s.disk b) {l : List ℕ}
    (h : (i.ptr 13 = 0 ∧ l = []) ∨ (i.ptr 13 ≠ 0 ∧ OuterFreed v D (i.ptr 13) l)) :
    ((∀ k < perBlk v.m, s.block i (.entry (.root 13) k) = 0) ∧
      l = nonzeros (s.block i) [.root 13]) ∨
    ∃ k < perBlk v.m, s.block i (.entry (.root 13) k) ≠ 0 ∧
      (((∀ j < perBlk v.m, k < j → s.block i (.entry (.entry (.root 13) k) j) = 0) ∧
        l = nonzeros (s.block i) (outerSlots v k)) ∨
      ((∃ j < perBlk v.m, k < j ∧ s.block i (.entry (.entry (.root 13) k) j) ≠ 0) ∧
        ¬ l.Nodup)) := by
  rcases h with ⟨h13, rfl⟩ | ⟨h13, h⟩
  · refine .inl ⟨fun k _ => Fs.block_entry_of_eq (p := .root 13) h13, ?_⟩
    refine (nonzeros_eq_nil fun q hq => ?_).symm
    rw [List.mem_singleton.mp hq]
    exact h13
  · have hT := hw.table (p := .root 13) trivial h13 hD
    have hroot : nonzeros (s.block i) [.root 13] = [i.ptr 13] := nonzeros_cons_of_ne h13
    change ∀ j, entries (D (physBlock v.m (i.ptr 13))) j = _ at hT
    rcases h with ⟨hzero, rfl⟩ | ⟨k, hk, hk0, rest, rfl, hrest⟩
    · exact .inl ⟨fun k hk => (hT k).symm.trans (hzero k hk), hroot.symm⟩
    · rw [hT k] at hk0 hrest ⊢
      have hI := hw.table (inner_valid hk) hk0 hD
      refine .inr ⟨k, hk, hk0, ?_⟩
      rcases hrest with ⟨hz, rfl⟩ | ⟨j, hkj, hj, hj0, hmem⟩
      · refine .inl ⟨fun j hj hkj => (hI j).symm.trans (hz j hkj hj), ?_⟩
        unfold outerSlots
        rw [nonzeros_append, hroot, ← hw.tableBlocks_append (inner_valid hk) hk0 hD]
      · refine .inr ⟨⟨j, hj, hkj, hI j ▸ hj0⟩, fun hnd => ?_⟩
        -- the inner loop has freed entry `j` already, and the outer loop meets it again
        have hin : entries (D (physBlock v.m (s.block i (.entry (.root 13) k)))) j ∈
            tableBlocks v (D (physBlock v.m (s.block i (.entry (.root 13) k)))) :=
          mem_nonzeros.mpr ⟨hj0, j, List.mem_range'_1.mpr ⟨Nat.zero_le j, by omega⟩, rfl⟩
        have hnd' := (List.nodup_append.mp hnd).1
        exact (List.disjoint_of_nodup_append hnd') hin (List.mem_cons_of_mem _ hmem)

/-! ## Which filled slots the list has -/

theorem nodup_base_root : (baseSlots v ++ [Slot.root 13]).Nodup := by
  refine List.Nodup.append nodup_baseSlots (List.nodup_singleton _) fun q hq hq' => ?_
  exact base_outer_disjoint (k := 0) q hq
    (mem_outerSlots.mpr (.inr (.inr (List.mem_singleton.mp hq'))))

theorem filled_of_no_inner (hzero : ∀ k < perBlk v.m, s.block i (.entry (.root 13) k) = 0)
    (q : Slot (Fin 14)) (hq : q.Valid (shape v.m)) (h0 : s.block i q ≠ 0) :
    q ∈ baseSlots v ++ [.root 13] := by
  rw [List.mem_append, mem_baseSlots, List.mem_singleton]
  rcases valid_cases hq with ⟨r, rfl⟩ | hj | ⟨k, hk, rfl⟩ | ⟨k, hk, j, -, rfl⟩
  · by_cases hr : r = 13
    · exact .inr (congrArg _ hr)
    · exact .inl (.inl ⟨r, hr, rfl⟩)
  · exact .inl (.inr hj)
  · exact absurd (hzero k hk) h0
  · exact absurd (Fs.block_entry_of_eq (hzero k hk)) h0

theorem filled_of_one_inner
    (only : ∀ k' < perBlk v.m, s.block i (.entry (.root 13) k') ≠ 0 → k' = k)
    (q : Slot (Fin 14)) (hq : q.Valid (shape v.m)) (h0 : s.block i q ≠ 0) :
    q ∈ baseSlots v ++ outerSlots v k := by
  rw [List.mem_append, mem_baseSlots, mem_outerSlots]
  rcases valid_cases hq with ⟨r, rfl⟩ | hj | ⟨k', hk', rfl⟩ | ⟨k', hk', j, hj, rfl⟩
  · by_cases hr : r = 13
    · exact .inr (.inr (.inr (congrArg _ hr)))
    · exact .inl (.inl ⟨r, hr, rfl⟩)
  · exact .inl (.inr hj)
  · obtain rfl := only k' hk' h0
    exact .inr (.inr (.inl rfl))
  · have h0' : s.block i (.entry (.root 13) k') ≠ 0 := fun h => h0 (Fs.block_entry_of_eq h)
    obtain rfl := only k' hk' h0'
    exact .inr (.inl ⟨j, hj, rfl⟩)

theorem eq_of_mem_slots {k' : ℕ}
    (h : (Slot.entry (.root 13) k' : Slot (Fin 14)) ∈ baseSlots v ++ outerSlots v k) : k' = k := by
  rw [List.mem_append, mem_baseSlots, mem_outerSlots] at h
  rcases h with (⟨r, -, h⟩ | ⟨j, -, h⟩) | ⟨j, -, h⟩ | h | h
  · cases h
  · exact absurd (Slot.root.inj (Slot.entry.inj h).1) (by decide)
  · cases (Slot.entry.inj h).1
  · exact (Slot.entry.inj h).2
  · cases h

theorem Writing.walk (hw : Writing v s ino i) :
    ∃ freed s' i', truncBlocks v.m i s = (some (freed, i'), s') ∧ Freed v s freed s' ∧
      Cleared (fun k => k.val < 14) i i' ∧
      ((∃ S : List (Slot (Fin 14)), S.Nodup ∧ (∀ q ∈ S, q.Valid (shape v.m)) ∧
          freed = nonzeros (s.block i) S ∧
          (OuterSafe v s i ↔ ∀ q, q.Valid (shape v.m) → s.block i q ≠ 0 → q ∈ S)) ∨
        (¬ OuterSafe v s i ∧ ¬ freed.Nodup)) := by
  obtain ⟨l₁, l₂, l₃, s₁, s₂, s', i', hrun, hf₁, hf₂, hf₃, hc, hl₁, hl₂, hl₃⟩ :=
    truncBlocks_spec (v := v) hw.trees.healthy i
  -- the tables are data blocks, and freeing writes metadata only
  have hbase := hw.base_eq (D := s.disk) fun _ _ => rfl
  have hlt : ∀ b ∈ nonzeros (s.block i) (baseSlots v), b < v.m.sBlocksCount :=
    hw.nonzeros_lt baseSlots_valid
  rw [← hl₁] at hbase
  have hlt₁ : ∀ b ∈ l₁, b < v.m.sBlocksCount := fun b hb =>
    hlt b (hbase ▸ List.mem_append_left _ hb)
  have hb₁ := hf₁.blocks hw.trees.toMetaInv hlt₁
  have hbase' : l₁ ++ l₂ = nonzeros (s.block i) (baseSlots v) := by
    rw [hl₁, hl₂]
    exact hw.base_eq hb₁.data
  have hb₂ := (hf₁.trans hf₂).blocks hw.trees.toMetaInv (hbase' ▸ hlt)
  refine ⟨l₁ ++ l₂ ++ l₃, s', i', hrun, (hf₁.trans hf₂).trans hf₃, hc, ?_⟩
  rw [hbase']
  rcases hw.outer_or_none hb₂.data hl₃ with ⟨hzero, rfl⟩ | ⟨k, hk, hk0, ⟨hbehind, rfl⟩ | ⟨hj, hnd⟩⟩
  · rw [← nonzeros_append]
    refine .inl ⟨_, nodup_base_root, ?_, rfl, ?_⟩
    · intro q hq
      rcases List.mem_append.mp hq with h | h
      · exact baseSlots_valid q h
      · rw [List.mem_singleton.mp h]
        trivial
    · refine ⟨fun _ => filled_of_no_inner hzero, fun _ k hk h0 => absurd (hzero k hk) h0⟩
  · rw [← nonzeros_append]
    refine .inl ⟨_, List.Nodup.append nodup_baseSlots (nodup_outerSlots k) base_outer_disjoint,
      ?_, rfl, fun hsafe => filled_of_one_inner (hsafe k hk hk0).1, fun hall k₁ hk₁ h0 => ?_⟩
    · intro q hq
      exact (List.mem_append.mp hq).elim (baseSlots_valid q) (outerSlots_valid hk q)
    · -- every inner table is in the list, so it is the one behind entry `k`
      have only : ∀ k' < perBlk v.m, s.block i (.entry (.root 13) k') ≠ 0 → k' = k :=
        fun k' hk' h0' => eq_of_mem_slots (hall _ (inner_valid hk') h0')
      obtain rfl := only k₁ hk₁ h0
      exact ⟨only, hbehind⟩
  · refine .inr ⟨fun hsafe => ?_, fun hnd' => hnd (List.nodup_append.mp hnd').2.1⟩
    obtain ⟨j, hjlt, hkj, hj0⟩ := hj
    exact hj0 ((hsafe k hk hk0).2 j hjlt hkj)

/-! ## The record -/

def Inode.emptied (i : Inode) (now : ℕ) : Inode :=
  { i with size := 0, blocks := 0, mtime := BitVec.ofNat 32 now }

theorem truncateFreed_eq (hi : MetaInv v s) (hn : v.IsIno ino) :
    truncateFreed v.m ino s =
      (truncBlocks v.m (s.inode v ino) >>= fun p => gets Fs.now >>= fun now =>
        writeInode v.m ino (p.2.emptied now) >>= fun _ => pure p.1)
        { s with blkbuf := s.disk (v.recBlock ino) } := by
  have hn0 : ¬ (v.m.mounted = false ∨ ino = 0) := by
    rw [v.mounted]
    have := hn.1
    simp
    omega
  unfold truncateFreed
  rw [if_neg hn0, bind_of_some (readInode_run hi hn)]
  rfl

section

variable {freed : List ℕ} {s₁ : Fs} {i' : Inode} (hi : MetaInv v s) (hn : v.IsIno ino)
  (hwalk : truncBlocks v.m (s.inode v ino) { s with blkbuf := s.disk (v.recBlock ino) } =
    (some (freed, i'), s₁))

include hi hn hwalk

theorem truncateFreed_freed {freed' : List ℕ}
    (h : truncateFreed v.m ino s = (some freed', s')) : freed' = freed := by
  rw [truncateFreed_eq hi hn, bind_of_some hwalk] at h
  obtain ⟨now, s₂, -, h₂⟩ := of_bind_eq_some h
  obtain ⟨-, s₃, -, h₃⟩ := of_bind_eq_some h₂
  exact (Option.some.inj (congrArg Prod.fst h₃)).symm

theorem truncateFreed_run (hi₁ : MetaInv v s₁) :
    truncateFreed v.m ino s = (some freed, s₁.withInode v ino (i'.emptied s₁.now)) := by
  rw [truncateFreed_eq hi hn, bind_of_some hwalk]
  exact (bind_of_some (show gets Fs.now s₁ = (some s₁.now, s₁) from rfl)).trans
    (bind_of_some (writeInode_run hi₁ hn _))

end

/-! ## Clean truncation -/

theorem WellFormed.reach_ok (hwf : WellFormed v s) (hn : s.Live v n)
    (h : s.Reach v n b) : s.Ok v b := by
  obtain ⟨ht, h0, q, hq, rfl⟩ := h
  exact hwf.sound.ok n ⟨hn, ht⟩ q hq h0

theorem WellFormed.reach_inj (hwf : WellFormed v s) {n' : ℕ} (hn : s.Live v n)
    (hn' : s.Live v n') (h : s.Reach v n b) (h' : s.Reach v n' b) : n = n' := by
  obtain ⟨ht, h0, q, hq, rfl⟩ := h
  obtain ⟨ht', -, q', hq', he⟩ := h'
  exact (hwf.sound.inj n n' ⟨hn, ht⟩ ⟨hn', ht'⟩ q q' hq hq' h0 he.symm).1

theorem eq_last {k : Fin 15} (h : ¬ k.val < 14) : k = 14 := by
  have := k.isLt
  exact Fin.ext (by show k.val = 14; omega)

section

variable {freed : List ℕ} {s₁ : Fs} {i' : Inode} (hwf : WellFormed v s) (hlive : s.Live v ino)
  (hwalk : truncBlocks v.m (s.inode v ino) { s with blkbuf := s.disk (v.recBlock ino) } =
    (some (freed, i'), s₁))
  (hf : Freed v { s with blkbuf := s.disk (v.recBlock ino) } freed s₁)
  (hc : Cleared (fun k => k.val < 14) (s.inode v ino) i')

include hwf hlive hwalk hf hc

theorem clean_of_walk (hnd : freed.Nodup) (hmem : ∀ b, b ∈ freed ↔ s.Reach v ino b)
    (h14 : (s.inode v ino).ptr 14 = 0) : CleanTruncate v s ino := by
  have hlt : ∀ b ∈ freed, b < v.m.sBlocksCount := fun b hb =>
    (hwf.reach_ok hlive ((hmem b).mp hb)).1
  have hb := hf.blocks (hwf.toMetaInv.of_disk rfl rfl) hlt
  have hused : ∀ b < v.m.sBlocksCount,
      (s₁.withInode v ino (i'.emptied s₁.now)).used v b = true ↔
        s.used v b = true ∧ ¬ s.Reach v ino b := by
    intro b hlt
    rw [used_withInode hlive.1 hlt, hb.used b hlt, hmem b]
    exact Iff.rfl
  refine ⟨freed, _, truncateFreed_run hwf.toMetaInv hlive.1 hwalk hb.inv, hnd, hmem, hused, ?_, ?_,
    ?_, ?_⟩
  · intro b hlt hother
    rw [hused b hlt]
    rcases hother with hm | ⟨n, hn, hne, hr⟩
    · exact ⟨hwf.metaUsed b hlt hm, fun hr => (hwf.reach_ok hlive hr).2.1 hm⟩
    · exact ⟨(hwf.reach_ok hn hr).2.2, fun hr' => hne (hwf.reach_inj hn hlive hr hr')⟩
  · have hset : {b | s.Reach v ino b} = (freed.toFinset : Set ℕ) := by
      ext b
      exact (hmem b).symm.trans List.mem_toFinset.symm
    rw [hset, Set.ncard_coe_finset, List.toFinset_card_of_nodup hnd]
    exact hf.count
  · rw [inode_withInode_self]
    rfl
  · intro k
    rw [inode_withInode_self]
    refine (hc.ptr k).trans ?_
    by_cases hk : k.val < 14
    · rw [if_pos hk]
    · rw [if_neg hk, eq_last hk]
      exact h14

theorem ptr_last_of_clean (hclean : CleanTruncate v s ino) : (s.inode v ino).ptr 14 = 0 := by
  obtain ⟨freed', s', hrun, -, hmem, -, -, -, -, hptr⟩ := hclean
  obtain rfl := truncateFreed_freed hwf.toMetaInv hlive.1 hwalk hrun
  have hlt : ∀ b ∈ freed', b < v.m.sBlocksCount := fun b hb =>
    (hwf.reach_ok hlive ((hmem b).mp hb)).1
  have hb := hf.blocks (hwf.toMetaInv.of_disk rfl rfl) hlt
  obtain rfl : _ = s' := congrArg Prod.snd
    ((truncateFreed_run hwf.toMetaInv hlive.1 hwalk hb.inv).symm.trans hrun)
  have h14 := hptr 14
  rw [inode_withInode_self] at h14
  have hkeep : i'.ptr 14 = (s.inode v ino).ptr 14 := (hc.ptr 14).trans (if_neg (by decide))
  exact hkeep.symm.trans h14

end

theorem walk_nil (hh : ∀ b, s.fault b = none) (i : Inode) :
    ∃ freed s' i', truncBlocks v.m i s = (some (freed, i'), s') ∧ Freed v s freed s' ∧
      Cleared (fun k => k.val < 14) i i' ∧ (freed = [] ↔ ∀ k : Fin 15, k.val < 14 → i.ptr k = 0) := by
  obtain ⟨l₁, l₂, l₃, s₁, s₂, s', i', hrun, hf₁, hf₂, hf₃, hc, hl₁, hl₂, hl₃⟩ :=
    truncBlocks_spec (v := v) hh i
  refine ⟨_, s', i', hrun, (hf₁.trans hf₂).trans hf₃, hc, ?_, fun hz => ?_⟩
  · intro hnil k hk
    rw [List.append_eq_nil_iff, List.append_eq_nil_iff] at hnil
    obtain ⟨⟨h₁, h₂⟩, h₃⟩ := hnil
    rw [h₁] at hl₁
    rw [h₂] at hl₂
    rw [h₃] at hl₃
    by_contra h0
    rcases Nat.lt_or_ge k.val 12 with hk12 | hk12
    · have hmem : i.ptr k ∈ nonzeros (fun j => i.ptr (Fin.ofNat 15 j)) (List.range' 0 12) := by
        refine mem_nonzeros.mpr ⟨h0, k.val, List.mem_range'_1.mpr ⟨Nat.zero_le _, by omega⟩, ?_⟩
        exact congrArg i.ptr (Fin.ext (Nat.mod_eq_of_lt k.isLt))
      rw [← hl₁] at hmem
      cases hmem
    · rcases Nat.lt_or_ge k.val 13 with hk13 | hk13
      · rw [show k = 12 from Fin.ext (by show k.val = 12; omega)] at h0
        rw [if_neg h0] at hl₂
        exact absurd hl₂.symm (by simp)
      · rw [show k = 13 from Fin.ext (by show k.val = 13; omega)] at h0
        rcases hl₃ with ⟨h, -⟩ | ⟨-, ⟨-, h⟩ | ⟨j, -, -, rest, h, -⟩⟩
        · exact h0 h
        · cases h
        · exact absurd h.symm (by simp)
  · have h₁ : l₁ = [] := by
      rw [hl₁]
      refine nonzeros_eq_nil fun j hj => hz _ ?_
      rw [List.mem_range'_1] at hj
      show j % 15 < 14
      omega
    have h₂ : l₂ = [] := hl₂.trans (if_pos (hz 12 (by decide)))
    have h₃ : l₃ = [] := hl₃.elim (·.2) fun h => absurd (hz 13 (by decide)) h.1
    rw [h₁, h₂, h₃]
    rfl

theorem clean_iff_of_noTree (hwf : WellFormed v s) (hlive : s.Live v ino)
    (ht : ¬ (s.inode v ino).HasTree) :
    CleanTruncate v s ino ↔ ∀ k, (s.inode v ino).ptr k = 0 := by
  obtain ⟨freed, s₁, i', hwalk, hf, hc, hnil⟩ := walk_nil (v := v)
    (s := { s with blkbuf := s.disk (v.recBlock ino) }) hwf.toMetaInv.healthy (s.inode v ino)
  have hreach : ∀ b, ¬ s.Reach v ino b := fun b h => ht h.1
  constructor
  · intro hclean k
    have h14 := ptr_last_of_clean hwf hlive hwalk hf hc hclean
    obtain ⟨freed', s', hrun, -, hmem, -⟩ := hclean
    obtain rfl := truncateFreed_freed hwf.toMetaInv hlive.1 hwalk hrun
    have hempty : freed' = [] :=
      List.eq_nil_iff_forall_not_mem.mpr fun b hb => hreach b ((hmem b).mp hb)
    by_cases hk : k.val < 14
    · exact hnil.mp hempty k hk
    · rw [eq_last hk]
      exact h14
  · intro hz
    obtain rfl := hnil.mpr fun k _ => hz k
    exact clean_of_walk hwf hlive hwalk hf hc List.nodup_nil
      (fun b => ⟨fun h => (nomatch h), fun h => absurd h (hreach b)⟩) (hz 14)

theorem clean_iff_of_tree (hwf : WellFormed v s) (hlive : s.Live v ino)
    (ht : (s.inode v ino).HasTree) :
    CleanTruncate v s ino ↔ OuterSafe v s (s.inode v ino) ∧ (s.inode v ino).ptr 14 = 0 := by
  have hw := hwf.writing hlive ht (s.disk (v.recBlock ino))
  obtain ⟨freed, s₁, i', hwalk, hf, hc, hcases⟩ := hw.walk
  constructor
  · intro hclean
    refine ⟨?_, ptr_last_of_clean hwf hlive hwalk hf hc hclean⟩
    obtain ⟨freed', s', hrun, hnd, hmem, -⟩ := hclean
    obtain rfl := truncateFreed_freed hwf.toMetaInv hlive.1 hwalk hrun
    rcases hcases with ⟨S, -, hval, rfl, hiff⟩ | ⟨-, hdup⟩
    · refine hiff.mpr fun q hq h0 => ?_
      -- a filled slot leads to a reachable block, which the walk has freed at some slot
      obtain ⟨-, q', hq', he⟩ := mem_nonzeros.mp ((hmem _).mpr ⟨ht, h0, q, hq, rfl⟩)
      rw [hw.inj hq (hval q' hq') h0 he.symm]
      exact hq'
    · exact absurd hnd hdup
  · rintro ⟨hsafe, h14⟩
    rcases hcases with ⟨S, hS, hval, rfl, hiff⟩ | ⟨hnot, -⟩
    · refine clean_of_walk hwf hlive hwalk hf hc ?_ (fun b => ?_) h14
      · exact nodup_nonzeros hS fun q hq q' hq' h0 he => hw.inj (hval q hq) (hval q' hq') h0 he
      · rw [mem_nonzeros]
        constructor
        · rintro ⟨h0, q, hq, he⟩
          exact ⟨ht, h0, q, hval q hq, he⟩
        · rintro ⟨-, h0, q, hq, rfl⟩
          exact ⟨h0, q, hiff.mp hsafe q hq h0, rfl⟩
    · exact absurd hsafe hnot

/-- **Truncation is clean exactly under the condition**, for every inode in use. -/
theorem truncate_clean_iff (hwf : WellFormed v s) (hlive : s.Live v ino) :
    CleanTruncate v s ino ↔ TruncSafe v s (s.inode v ino) := by
  unfold TruncSafe
  by_cases ht : (s.inode v ino).HasTree
  · rw [clean_iff_of_tree hwf hlive ht]
    exact ⟨fun h => ⟨fun _ => h, fun h' => absurd ht h'⟩, fun h => h.1 ht⟩
  · rw [clean_iff_of_noTree hwf hlive ht]
    exact ⟨fun h => ⟨fun h' => absurd h' ht, fun _ => h⟩, fun h => h.2 ht⟩

/-- The file of five bytes is truncated cleanly. -/
theorem truncate_clean_iff_sample : WellFormed sampleVolume sampleFs ∧
    sampleFs.Live sampleVolume 11 ∧ CleanTruncate sampleVolume sampleFs 11 := by
  have hlive : sampleFs.Live sampleVolume 11 := ⟨⟨by decide, by decide⟩, by decide⟩
  refine ⟨sampleFs_wellFormed, hlive, (truncate_clean_iff sampleFs_wellFormed hlive).mpr ?_⟩
  rw [sampleFs_inode_file]
  refine ⟨fun _ => ⟨fun k _ h0 => ?_, rfl⟩, fun h => absurd (.inl (by decide)) h⟩
  exact absurd (Fs.block_entry_of_eq (p := .root 13) rfl) h0

/-! ## Two volumes on which it is not clean -/

def imageBase (D : ℕ → Bytes) : Fs :=
  { sampleFs with disk := fun b => if b = 3 ∨ 10 ≤ b then D b else sampleDisk b }

def imageFs (i : Inode) (D : ℕ → Bytes) : Fs := (imageBase D).withInode sampleVolume 11 i

section Image

variable {D : ℕ → Bytes}

theorem isIno_eleven : sampleVolume.IsIno 11 := ⟨by decide, by decide⟩

theorem imageBase_metaInv : MetaInv sampleVolume (imageBase D) :=
  sampleFs_metaInv.of_gdesc rfl fun g hg => by
    obtain rfl : g = 0 := Nat.lt_one_iff.mp hg
    exact ⟨rfl, rfl, rfl⟩

theorem sampleVolume_recBlock : 5 ≤ sampleVolume.recBlock n ∧ sampleVolume.recBlock n ≤ 8 := by
  show 5 ≤ (5 * 1024 + (n - 1) % 32 * 128) % 2 ^ 32 / 1024 ∧
    (5 * 1024 + (n - 1) % 32 * 128) % 2 ^ 32 / 1024 ≤ 8
  omega

theorem imageBase_inode (n : ℕ) :
    (imageBase D).inode sampleVolume n = sampleFs.inode sampleVolume n := by
  have hb := sampleVolume_recBlock (n := n)
  have hdisk : (imageBase D).disk (sampleVolume.recBlock n) = sampleDisk (sampleVolume.recBlock n) :=
    if_neg (by omega)
  exact congrArg (Inode.decode · (sampleVolume.recOff n)) hdisk

theorem imageFs_inode_self : (imageFs i D).inode sampleVolume 11 = i :=
  inode_withInode_self 11 i

theorem imageFs_disk (hb : 10 ≤ b) : (imageFs i D).disk b = D b := by
  have := sampleVolume_recBlock (n := 11)
  refine (withInode_disk_of_ne (by omega)).trans (if_pos (.inr hb))

theorem imageFs_used (hb : b < 64) :
    (imageFs i D).used sampleVolume b = WordBitmap.get (w := 8) (D 3) b := by
  refine (used_withInode isIno_eleven hb i).trans ?_
  have hdiv : b / 8192 = 0 := Nat.div_eq_of_lt (by omega)
  have hmod : b % 8192 = b := Nat.mod_eq_of_lt (by omega)
  show WordBitmap.get (w := 8) (D 3) (b % 8192) = _
  rw [hmod]

theorem imageFs_cases (hn : sampleVolume.IsIno n)
    (ht : ((imageFs i D).inode sampleVolume n).HasTree) :
    n = 11 ∨ (n = 2 ∧ (imageFs i D).inode sampleVolume n = sampleRoot) := by
  by_cases h11 : n = 11
  · exact .inl h11
  · have he : (imageFs i D).inode sampleVolume n = sampleFs.inode sampleVolume n :=
      (inode_withInode_of_ne isIno_eleven hn h11 i).trans (imageBase_inode n)
    rw [he] at ht ⊢
    by_cases h2 : n = 2
    · subst h2
      exact .inr ⟨rfl, sampleFs_inode_root⟩
    · have hle : n ≤ 32 := hn.2
      have htype := sampleFs_type_eq_zero n (by omega) (by have := hn.1; omega) h2 h11
      unfold Inode.HasTree at ht
      rw [htype] at ht
      rcases ht with ht | ht | ⟨ht, -⟩ <;> exact absurd ht (by decide)

theorem imageFs_wellFormed (hlow : ∀ b ≤ 9, WordBitmap.get (w := 8) (D 3) b = true)
    (hok : i.HasTree → ∀ q : Slot (Fin 14), q.Valid (shape sampleVolume.m) →
      (imageFs i D).block i q ≠ 0 → 10 ≤ (imageFs i D).block i q ∧ (imageFs i D).block i q < 64 ∧
        WordBitmap.get (w := 8) (D 3) ((imageFs i D).block i q) = true)
    (hinj : i.HasTree → ∀ q q' : Slot (Fin 14), q.Valid (shape sampleVolume.m) →
      q'.Valid (shape sampleVolume.m) → (imageFs i D).block i q ≠ 0 →
      (imageFs i D).block i q = (imageFs i D).block i q' → q = q') :
    WellFormed sampleVolume (imageFs i D) := by
  -- the directory has block 9, the file blocks from 10 on
  have hroot : ∀ q : Slot (Fin 14), q.Valid (shape sampleVolume.m) →
      (imageFs i D).block sampleRoot q ≠ 0 →
      q = .root 0 ∧ (imageFs i D).block sampleRoot q = 9 := by
    intro q hq h0
    obtain rfl := eq_root_of_block_ne_zero (i := sampleRoot) (by decide) q hq h0
    exact ⟨rfl, rfl⟩
  have hapart : i.HasTree → ∀ q q' : Slot (Fin 14), q.Valid (shape sampleVolume.m) →
      q'.Valid (shape sampleVolume.m) → (imageFs i D).block i q ≠ 0 →
      (imageFs i D).block i q ≠ (imageFs i D).block sampleRoot q' := by
    intro ht q q' hq hq' h0 he
    have h10 := (hok ht q hq h0).1
    have h9 := (hroot q' hq' (he ▸ h0)).2
    omega
  refine ⟨imageBase_metaInv.withInode isIno_eleven i, fun b hb hm => ?_, ?_, ?_⟩
  · have := sampleVolume_isMeta_le hm
    rw [imageFs_used hb]
    exact hlow b (by omega)
  · rintro n ⟨hn, ht⟩ q hq h0
    have hcount : sampleVolume.m.sBlocksCount = 64 := rfl
    rcases imageFs_cases hn.1 ht with rfl | ⟨rfl, he⟩
    · rw [imageFs_inode_self] at ht h0 ⊢
      obtain ⟨h10, h64, hbit⟩ := hok ht q hq h0
      refine ⟨h64, fun hm => ?_, (imageFs_used h64).trans hbit⟩
      have := sampleVolume_isMeta_le hm
      change 10 ≤ blockAt (imageFs i D).disk i.roots q at h10
      omega
    · rw [he] at h0 ⊢
      obtain ⟨-, h9⟩ := hroot q hq h0
      change (imageFs i D).Ok sampleVolume ((imageFs i D).block sampleRoot q)
      rw [h9]
      exact ⟨by decide, fun hm => absurd (sampleVolume_isMeta_le hm) (by decide),
        (imageFs_used (by decide)).trans (hlow 9 (by decide))⟩
  · rintro n n' ⟨hn, ht⟩ ⟨hn', ht'⟩ q q' hq hq' h0 he
    have h0' : blockAt (imageFs i D).disk ((imageFs i D).inode sampleVolume n').roots q' ≠ 0 :=
      fun h => h0 (he.trans h)
    rcases imageFs_cases hn.1 ht with rfl | ⟨rfl, hrec⟩ <;>
      rcases imageFs_cases hn'.1 ht' with rfl | ⟨rfl, hrec'⟩
    · rw [imageFs_inode_self] at ht h0 he
      exact ⟨rfl, hinj ht q q' hq hq' h0 he⟩
    · rw [imageFs_inode_self] at ht h0 he
      rw [hrec'] at he
      exact absurd he (hapart ht q q' hq hq' h0)
    · rw [imageFs_inode_self] at ht' h0' he
      rw [hrec] at he
      exact absurd he.symm (hapart ht' q' q hq' hq h0')
    · rw [hrec] at h0
      rw [hrec'] at h0'
      exact ⟨rfl, (hroot q hq h0).1.trans (hroot q' hq' h0').1.symm⟩

theorem imageFs_live : (imageFs i D).Live sampleVolume 11 := by
  refine ⟨isIno_eleven, (inoBit_withInode isIno_eleven isIno_eleven i).trans ?_⟩
  show WordBitmap.get (w := 8) (sampleDisk 4) 10 = true
  decide

end Image

/-- A file with two inner tables behind its table of tables, one data block in each. -/
def doubleFile : Inode :=
  { Inode.zero with
    mode := 0x81A4, size := 537600, linksCount := 1, blocks := 10
    block := fun k => if k = 13 then 12 else 0 }

def doubleData : ℕ → Bytes
  | 3 => wr32 zero 0 0x1FFFF
  | 12 => wr32 (wr32 zero 0 13) 4 14
  | 13 => wr32 zero 0 15
  | 14 => wr32 zero 0 16
  | _ => zero

def newlineLink : Inode :=
  { Inode.zero with
    mode := 0xA1FF, size := 1, linksCount := 1
    block := fun k => if k = 0 then 10 else 0 }

theorem rd32_table (x k : ℕ) (hx : x < 2 ^ 32) :
    rd32 (wr32 zero 0 x) (k * 4) = if k = 0 then x else 0 := by
  by_cases hk : k = 0
  · rw [if_pos hk, hk]
    exact (rd32_wr32 zero 0 x).trans (Nat.mod_eq_of_lt hx)
  · rw [if_neg hk, rd32_wr32_of_disjoint (by omega)]
    rfl

theorem doubleFile_block (hq : q.Valid (shape sampleVolume.m))
    (h0 : (imageFs doubleFile doubleData).block doubleFile q ≠ 0) :
    let b := (imageFs doubleFile doubleData).block doubleFile q
    (q = .root 13 ∧ b = 12) ∨ (q = .entry (.root 13) 0 ∧ b = 13) ∨
      (q = .entry (.root 13) 1 ∧ b = 14) ∨ (q = .entry (.entry (.root 13) 0) 0 ∧ b = 15) ∨
      (q = .entry (.entry (.root 13) 1) 0 ∧ b = 16) := by
  set s := imageFs doubleFile doubleData
  have hroots : ∀ r : Fin 14, r ≠ 13 → doubleFile.roots r = 0 := by decide
  have h13 : s.block doubleFile (.root 13) = 12 := rfl
  have htop : ∀ k, s.block doubleFile (.entry (.root 13) k) =
      if k = 0 then 13 else if k = 1 then 14 else 0 := by
    intro k
    rw [Fs.block_entry_of_ne (by rw [h13]; decide), h13, imageFs_disk (by decide)]
    show rd32 (wr32 (wr32 zero 0 13) 4 14) (k * 4) = _
    by_cases hk : k = 1
    · subst hk
      exact rd32_wr32 _ 4 14
    · rw [rd32_wr32_of_disjoint (by omega), rd32_table 13 k (by decide)]
      simp [hk]
  have hinner : ∀ k x, s.block doubleFile (.entry (.root 13) k) = x →
      10 ≤ x → ∀ y, doubleData x = wr32 zero 0 y → y < 2 ^ 32 → ∀ j,
      s.block doubleFile (.entry (.entry (.root 13) k) j) = if j = 0 then y else 0 := by
    intro k x hk hx y hy hlt j
    rw [Fs.block_entry_of_ne (by omega), hk, imageFs_disk hx, hy, rd32_table y j hlt]
  rcases valid_cases hq with ⟨r, rfl⟩ | ⟨j, -, rfl⟩ | ⟨k, -, rfl⟩ | ⟨k, -, j, -, rfl⟩
  · by_cases hr : r = 13
    · subst hr
      exact .inl ⟨rfl, h13⟩
    · exact absurd (hroots r hr) h0
  · exact absurd (Fs.block_entry_of_eq (p := .root 12) (hroots 12 (by decide))) h0
  · by_cases hk : k = 0
    · subst hk
      exact .inr (.inl ⟨rfl, htop 0⟩)
    · by_cases hk1 : k = 1
      · subst hk1
        exact .inr (.inr (.inl ⟨rfl, htop 1⟩))
      · exact absurd ((htop k).trans (by rw [if_neg hk, if_neg hk1])) h0
  · by_cases hk : k = 0
    · subst hk
      have hb := hinner 0 13 (htop 0) (by decide) 15 rfl (by decide) j
      by_cases hj : j = 0
      · subst hj
        exact .inr (.inr (.inr (.inl ⟨rfl, hb⟩)))
      · exact absurd (hb.trans (if_neg hj)) h0
    · by_cases hk1 : k = 1
      · subst hk1
        have hb := hinner 1 14 (htop 1) (by decide) 16 rfl (by decide) j
        by_cases hj : j = 0
        · subst hj
          exact .inr (.inr (.inr (.inr ⟨rfl, hb⟩)))
        · exact absurd (hb.trans (if_neg hj)) h0
      · exact absurd (Fs.block_entry_of_eq ((htop k).trans (by rw [if_neg hk, if_neg hk1]))) h0

theorem doubleFs_wellFormed : WellFormed sampleVolume (imageFs doubleFile doubleData) := by
  have hbits : ∀ b ≤ 16, WordBitmap.get (w := 8) (doubleData 3) b = true := by decide
  refine imageFs_wellFormed (fun b hb => hbits b (by omega)) (fun _ q hq h0 => ?_)
    fun _ q q' hq hq' h0 he => ?_
  · have hle : 12 ≤ (imageFs doubleFile doubleData).block doubleFile q ∧
        (imageFs doubleFile doubleData).block doubleFile q ≤ 16 := by
      rcases doubleFile_block hq h0 with ⟨-, h⟩ | ⟨-, h⟩ | ⟨-, h⟩ | ⟨-, h⟩ | ⟨-, h⟩ <;> omega
    exact ⟨by omega, by omega, hbits _ hle.2⟩
  · have h0' : (imageFs doubleFile doubleData).block doubleFile q' ≠ 0 := he ▸ h0
    -- five slots with five different blocks
    rcases doubleFile_block hq h0 with ⟨h, hb⟩ | ⟨h, hb⟩ | ⟨h, hb⟩ | ⟨h, hb⟩ | ⟨h, hb⟩ <;>
      rcases doubleFile_block hq' h0' with ⟨h', hb'⟩ | ⟨h', hb'⟩ | ⟨h', hb'⟩ | ⟨h', hb'⟩ | ⟨h', hb'⟩ <;>
      first
      | exact h.trans h'.symm
      | (exfalso; omega)

theorem newlineLink_wellFormed : WellFormed sampleVolume (imageFs newlineLink doubleData) := by
  have ht : ¬ newlineLink.HasTree := by
    rintro (h | h | ⟨-, h⟩) <;> revert h <;> decide
  have hbits : ∀ b ≤ 9, WordBitmap.get (w := 8) (doubleData 3) b = true := by decide
  exact imageFs_wellFormed hbits (fun h => absurd h ht) fun h => absurd h ht

/-- **Truncation that is not clean.**  With two inner tables the second one is lost to the buffer;
the text of a short symbolic link is taken for a block number. -/
theorem truncate_not_clean :
    (WellFormed sampleVolume (imageFs doubleFile doubleData) ∧
      (imageFs doubleFile doubleData).Live sampleVolume 11 ∧
      ((imageFs doubleFile doubleData).inode sampleVolume 11).type = ifReg ∧
      ¬ CleanTruncate sampleVolume (imageFs doubleFile doubleData) 11) ∧
    (WellFormed sampleVolume (imageFs newlineLink doubleData) ∧
      (imageFs newlineLink doubleData).Live sampleVolume 11 ∧
      ((imageFs newlineLink doubleData).inode sampleVolume 11).type = ifLnk ∧
      ¬ CleanTruncate sampleVolume (imageFs newlineLink doubleData) 11) := by
  refine ⟨⟨doubleFs_wellFormed, imageFs_live, ?_, fun h => ?_⟩,
    newlineLink_wellFormed, imageFs_live, ?_, fun h => ?_⟩
  · rw [imageFs_inode_self]
    decide
  · rw [clean_iff_of_tree doubleFs_wellFormed imageFs_live
      (by rw [imageFs_inode_self]; exact .inl (by decide)), imageFs_inode_self] at h
    have h1 : (imageFs doubleFile doubleData).block doubleFile (.entry (.root 13) 1) ≠ 0 := by
      decide
    exact absurd ((h.1 0 (by decide) (by decide)).1 1 (by decide) h1) (by decide)
  · rw [imageFs_inode_self]
    decide
  · rw [clean_iff_of_noTree newlineLink_wellFormed imageFs_live
      (by rw [imageFs_inode_self]; rintro (h | h | ⟨-, h⟩) <;> revert h <;> decide),
      imageFs_inode_self] at h
    exact absurd (h 0) (by decide)

end BananaOS.Ext2
