import BananaOS.Ext2.DirBlock
import BananaOS.Ext2.WriteFile

/-!
# What a directory says

`Fs.entries` is the list of the entries of a directory, block by block: its names and the inodes
they stand for.  This is the abstract directory.  `DirOk` is what the walks need: every block is
there and tiled.
-/

namespace BananaOS.Ext2

open Bytes FailState BlockTree RecordChain

def Fs.dirBlock (s : Fs) (v : Volume) (i : Inode) (b : ℕ) : Bytes :=
  s.disk (s.block i (slotOf v.m b))

def Fs.entries (s : Fs) (v : Volume) (i : Inode) : List (Name × ℕ) :=
  (List.range (dirBlocks v.m i)).flatMap fun b => blockEntries v.m.blkSize (s.dirBlock v i b)

/-- A directory whose blocks are all there and all tiled.  The bound is that of the arithmetic with
its length. -/
structure DirOk (v : Volume) (s : Fs) (i : Inode) : Prop where
  isDir : i.type = ifDir
  size_le : i.size.toNat + v.m.blkSize ≤ 2 ^ 32
  present : ∀ b < dirBlocks v.m i, b < maxBlocks v.m ∧ s.block i (slotOf v.m b) ≠ 0
  tiled : ∀ b < dirBlocks v.m i, ∃ l, Tiled v.m.blkSize (s.dirBlock v i b) l

/-- The record at `o` in block `b`, with the records before and after it. -/
structure RecordAt (v : Volume) (s : Fs) (i : Inode) (b o : ℕ) (l₁ l₂ : List ℕ) : Prop where
  lt : b < dirBlocks v.m i
  tiled : Tiled v.m.blkSize (s.dirBlock v i b) (l₁ ++ o :: l₂)

section

variable {v : Volume} {s s' : Fs} {i : Inode} {name : Name} {x : ℕ}

theorem DirOk.hasTree (h : DirOk v s i) : i.HasTree := .inr (.inl h.isDir)

theorem blkSize_lt (v : Volume) : 272 ≤ v.m.blkSize ∧ v.m.blkSize < 2 ^ 16 := by
  rcases v.blkSize_cases with h | h | h <;> omega

theorem DirOk.mem_entries (h : DirOk v s i) {e : Name × ℕ} :
    e ∈ s.entries v i ↔ ∃ b o l₁ l₂, RecordAt v s i b o l₁ l₂ ∧
      entryAt (s.dirBlock v i b) o = some e := by
  rw [Fs.entries, List.mem_flatMap]
  constructor
  · rintro ⟨b, hb, he⟩
    have hb := List.mem_range.mp hb
    obtain ⟨l, hl⟩ := h.tiled b hb
    rw [hl.entries_eq, List.mem_filterMap] at he
    obtain ⟨o, ho, he⟩ := he
    obtain ⟨l₁, l₂, rfl⟩ := List.append_of_mem ho
    exact ⟨b, o, l₁, l₂, ⟨hb, hl⟩, he⟩
  · rintro ⟨b, o, l₁, l₂, hrec, he⟩
    refine ⟨b, List.mem_range.mpr hrec.lt, ?_⟩
    rw [hrec.tiled.entries_eq, List.mem_filterMap]
    exact ⟨o, by simp, he⟩

theorem length_recName (p : Bytes) (o : ℕ) : (recName p o).length = recNameLen p o :=
  length_slice _ _ _

theorem DirOk.length_le (h : DirOk v s i) (he : (name, x) ∈ s.entries v i) : name.length ≤ 255 := by
  obtain ⟨b, o, l₁, l₂, -, he⟩ := h.mem_entries.mp he
  rw [← (entryAt_eq_some.mp he).2.1, length_recName]
  exact Nat.le_of_lt_succ (BitVec.isLt _)

theorem DirOk.congr (h : DirOk v s i)
    (hb : ∀ b < dirBlocks v.m i, s'.block i (slotOf v.m b) = s.block i (slotOf v.m b))
    (hd : ∀ b < dirBlocks v.m i, s'.dirBlock v i b = s.dirBlock v i b) :
    DirOk v s' i ∧ s'.entries v i = s.entries v i := by
  refine ⟨⟨h.isDir, h.size_le, fun b hlt => ?_, fun b hlt => ?_⟩, ?_⟩
  · rw [hb b hlt]
    exact h.present b hlt
  · rw [hd b hlt]
    exact h.tiled b hlt
  · rw [Fs.entries, Fs.entries]
    exact List.flatMap_congr fun b hlt => by rw [hd b (List.mem_range.mp hlt)]

/-! ## The search -/

/-- What a search for a record comes to: the first one that passes the test, or none does.  The
search starts in block `b`. -/
def Searched (v : Volume) (s : Fs) (i : Inode) (test : Bytes → ℕ → Bool) (b : ℕ)
    (r : Option (ℕ × ℕ × Option ℕ)) (buf : Bytes) : Prop :=
  (r = none ∧ ∀ c, b ≤ c → c < dirBlocks v.m i →
    ∀ o ∈ blockOffsets v.m.blkSize (s.dirBlock v i c), test (s.dirBlock v i c) o = false) ∨
  ∃ c o l₁ l₂, r = some (s.block i (slotOf v.m c), o, l₁.getLast?) ∧
    buf = s.dirBlock v i c ∧ RecordAt v s i c o l₁ l₂ ∧ test (s.dirBlock v i c) o = true

theorem dirScan_run (hd : DirOk v s i) (hr : s.InRange v i) (strict stopAtHole : Bool)
    (test : Bytes → ℕ → Bool) : ∀ (n b : ℕ) (t : Fs), b + n = dirBlocks v.m i → t.disk = s.disk →
    (∀ x, t.fault x = none) → ∃ r buf ibuf,
      dirScan v.m i strict stopAtHole test n b t =
        (some r, { t with blkbuf := buf, indbuf := ibuf }) ∧ Searched v s i test b r buf := by
  intro n
  induction n with
  | zero =>
    intro b t hb _ _
    refine ⟨none, t.blkbuf, t.indbuf, rfl, .inl ⟨rfl, fun c h1 h2 => ?_⟩⟩
    omega
  | succ n ih =>
    intro b t hb hdisk hh
    have hlt : b < dirBlocks v.m i := by omega
    obtain ⟨hmax, h0⟩ := hd.present b hlt
    have hblk : ∀ q, t.block i q = s.block i q := fun q => by rw [Fs.block, Fs.block, hdisk]
    have hr' : t.InRange v i := fun q hq hq0 => by
      rw [hblk q] at hq0 ⊢
      exact hr q hq hq0
    obtain ⟨ibuf, hrun⟩ := dataBlock_run hh hr' b
    rw [if_pos hmax, hblk] at hrun
    rw [dirScan, bind_of_some hrun, if_neg h0, bind_of_some (readBlk_run (v := v) (by exact hh)
      (hr _ (slotOf_valid hmax).1 h0)), gets_bind_run]
    -- the walk over this block
    have hbuf : t.disk (s.block i (slotOf v.m b)) = s.dirBlock v i b := by
      rw [hdisk]
      rfl
    obtain ⟨l, hl⟩ := hd.tiled b hlt
    have hwalk := hl.chain.walk_eq (by decide) strict (test (s.dirBlock v i b)) none
      (le_refl (v.m.blkSize - 0))
    rcases hhit : firstHit (test (s.dirBlock v i b)) none l with _ | ⟨o, prev⟩
    · rw [hhit] at hwalk
      simp only [hbuf, Nat.sub_zero] at hwalk ⊢
      simp only [hwalk]
      obtain ⟨r, buf, ibuf', hrest, hsearch⟩ := ih (b + 1)
        { t with indbuf := ibuf, blkbuf := s.dirBlock v i b } (by omega) hdisk hh
      refine ⟨r, buf, ibuf', hrest, ?_⟩
      rcases hsearch with ⟨rfl, hnone⟩ | hsome
      · refine .inl ⟨rfl, fun c h1 h2 o ho => ?_⟩
        by_cases hc : c = b
        · subst hc
          rw [hl.offsets_eq] at ho
          exact firstHit_eq_none.mp hhit o ho
        · exact hnone c (by omega) h2 o ho
      · exact .inr hsome
    · rw [hhit] at hwalk
      simp only [hbuf, Nat.sub_zero] at hwalk ⊢
      simp only [hwalk]
      obtain ⟨l₁, l₂, rfl, htest, -, hprev⟩ := firstHit_eq_some hhit
      rw [Option.or_none] at hprev
      subst hprev
      exact ⟨_, _, _, rfl, .inr ⟨b, o, l₁, l₂, rfl, rfl, ⟨hlt, hl⟩, htest⟩⟩

theorem dirScan_spec (hh : ∀ x, s.fault x = none) (hr : s.InRange v i) (hd : DirOk v s i)
    (strict stopAtHole : Bool) (test : Bytes → ℕ → Bool) (buf₀ : Bytes) : ∃ r buf ibuf,
      dirScan v.m i strict stopAtHole test (dirBlocks v.m i) 0 { s with blkbuf := buf₀ } =
        (some r, { s with blkbuf := buf, indbuf := ibuf }) ∧ Searched v s i test 0 r buf := by
  obtain ⟨r, buf, ibuf, hrun, hs⟩ := dirScan_run hd hr strict stopAtHole test (dirBlocks v.m i) 0
    { s with blkbuf := buf₀ } (Nat.zero_add _) rfl hh
  exact ⟨r, buf, ibuf, hrun, hs⟩

theorem not_mem_entries_of_searched (hd : DirOk v s i) {test : Bytes → ℕ → Bool} {e : Name × ℕ}
    (htest : ∀ b o l₁ l₂, RecordAt v s i b o l₁ l₂ → entryAt (s.dirBlock v i b) o = some e →
      test (s.dirBlock v i b) o = true)
    (hnone : ∀ c, 0 ≤ c → c < dirBlocks v.m i →
      ∀ o ∈ blockOffsets v.m.blkSize (s.dirBlock v i c), test (s.dirBlock v i c) o = false) :
    e ∉ s.entries v i := by
  intro he
  obtain ⟨b, o, l₁, l₂, hrec, hentry⟩ := hd.mem_entries.mp he
  have h := hnone b (Nat.zero_le b) hrec.lt o (by rw [hrec.tiled.offsets_eq]; simp)
  rw [htest b o l₁ l₂ hrec hentry] at h
  cases h

/-! ## The two comparisons -/

theorem isNamed_iff {p : Bytes} {o : ℕ} (hlen : name.length ≤ 255) :
    isNamed name p o = true ↔ entryAt p o = some (name, recIno p o) := by
  rw [isNamed, decide_eq_true_iff, Nat.mod_eq_of_lt (by omega), entryAt_eq_some]
  constructor
  · rintro ⟨h0, hn, hs⟩
    refine ⟨h0, ?_, rfl⟩
    rw [recName, hn]
    exact hs
  · rintro ⟨h0, hn, -⟩
    have hl : recNameLen p o = name.length := by rw [← hn, length_recName]
    refine ⟨h0, hl, ?_⟩
    rw [← hl]
    exact hn

theorem cString_of_not_mem {l : List Byte} (h : (0 : Byte) ∉ l) : cString l = l := by
  refine List.takeWhile_eq_self_iff.mpr fun c hc => ?_
  rw [decide_eq_true_iff]
  rintro rfl
  exact h hc

theorem isCalled_iff {p : Bytes} {o : ℕ} (h : (0 : Byte) ∉ recName p o) :
    isCalled name p o = true ↔ entryAt p o = some (name, recIno p o) := by
  rw [isCalled, decide_eq_true_iff, cString_of_not_mem h, entryAt_eq_some]
  tauto

def Fs.CNames (s : Fs) (v : Volume) (i : Inode) : Prop :=
  ∀ e ∈ s.entries v i, (0 : Byte) ∉ e.1

def Fs.UniqueNames (s : Fs) (v : Volume) (i : Inode) : Prop :=
  ((s.entries v i).map Prod.fst).Nodup

theorem Fs.UniqueNames.eq (h : s.UniqueNames v i) {x y : ℕ} (hx : (name, x) ∈ s.entries v i)
    (hy : (name, y) ∈ s.entries v i) : x = y :=
  congrArg Prod.snd (List.inj_on_of_nodup_map h hx hy rfl)

/-! ## Finding a name -/

/-- What `ext2_dir_find` has found, and where. -/
structure FoundAt (v : Volume) (s : Fs) (i : Inode) (name : Name) (f : DirFind) (b : ℕ)
    (l₁ l₂ : List ℕ) : Prop where
  record : RecordAt v s i b f.curOff l₁ l₂
  entry : entryAt (s.dirBlock v i b) f.curOff = some (name, f.childIno)
  blk : f.childBlk = s.block i (slotOf v.m b)
  prev : f.prevOff = l₁.getLast?

theorem FoundAt.mem {f : DirFind} {b : ℕ} {l₁ l₂ : List ℕ} (h : FoundAt v s i name f b l₁ l₂)
    (hd : DirOk v s i) : (name, f.childIno) ∈ s.entries v i :=
  hd.mem_entries.mpr ⟨b, f.curOff, l₁, l₂, h.record, h.entry⟩

variable {n : ℕ}

theorem dirFind_of_length (hi : MetaInv v s) (hn : v.IsIno n) (name : Name)
    (h : name.length = 0 ∨ 255 < name.length) :
    ∃ buf, dirFind v.m n name s = (none, { s with blkbuf := buf }) := by
  rw [dirFind, bind_of_some (readInode_run hi hn)]
  by_cases ht : (s.inode v n).type ≠ ifDir
  · rw [if_pos ht]
    exact ⟨_, rfl⟩
  · rw [if_neg ht, if_pos h]
    exact ⟨_, rfl⟩

theorem dirFind_spec (hwf : WellFormed v s) (hn : s.Live v n) (hd : DirOk v s (s.inode v n))
    (h0 : name ≠ []) (hlen : name.length ≤ 255) :
    (∃ f b l₁ l₂ buf ibuf,
      dirFind v.m n name s = (some f, { s with blkbuf := buf, indbuf := ibuf }) ∧
      FoundAt v s (s.inode v n) name f b l₁ l₂) ∨
    ∃ buf ibuf, dirFind v.m n name s = (none, { s with blkbuf := buf, indbuf := ibuf }) ∧
      ∀ x, (name, x) ∉ s.entries v (s.inode v n) := by
  have hname : ¬ (name.length = 0 ∨ 255 < name.length) := by
    rintro (h | h)
    · exact h0 (List.length_eq_zero_iff.mp h)
    · omega
  rw [dirFind, bind_of_some (readInode_run hwf.toMetaInv hn.1), if_neg (not_not.mpr hd.isDir),
    if_neg hname]
  obtain ⟨r, buf, ibuf, hrun, hs⟩ := dirScan_spec hwf.healthy (hwf.inRange hn hd.hasTree) hd true
    false (isNamed name) (s.disk (v.recBlock n))
  rw [bind_of_some hrun]
  rcases hs with ⟨rfl, hnone⟩ | ⟨b, o, l₁, l₂, rfl, rfl, hrec, htest⟩
  · refine .inr ⟨buf, ibuf, rfl, fun x => not_mem_entries_of_searched hd ?_ hnone⟩
    intro b o l₁ l₂ _ he
    have hx := (entryAt_eq_some.mp he).2.2
    exact (isNamed_iff hlen).mpr (he.trans (by rw [hx]))
  · exact .inl ⟨_, b, l₁, l₂, _, ibuf, rfl, hrec, (isNamed_iff hlen).mp htest, rfl, rfl⟩

theorem readDir_spec (hwf : WellFormed v s) (hn : s.Live v n) (hd : DirOk v s (s.inode v n))
    (hc : s.CNames v (s.inode v n)) (name : Name) :
    (∃ x buf ibuf, readDir v.m n (isCalled name) s =
      (some (some x), { s with blkbuf := buf, indbuf := ibuf }) ∧
      (name, x) ∈ s.entries v (s.inode v n)) ∨
    ∃ buf ibuf, readDir v.m n (isCalled name) s =
      (some none, { s with blkbuf := buf, indbuf := ibuf }) ∧
      ∀ x, (name, x) ∉ s.entries v (s.inode v n) := by
  -- every record in use has a name that is a C string
  have hnul : ∀ {b o l₁ l₂}, RecordAt v s (s.inode v n) b o l₁ l₂ →
      recIno (s.dirBlock v (s.inode v n) b) o ≠ 0 →
      (0 : Byte) ∉ recName (s.dirBlock v (s.inode v n) b) o := fun hrec h0 =>
    hc _ (hd.mem_entries.mpr ⟨_, _, _, _, hrec, entryAt_of_live h0⟩)
  rw [readDir, if_neg (by rw [v.mounted]; decide),
    bind_of_some (readInode_run hwf.toMetaInv hn.1), if_neg (not_not.mpr hd.isDir)]
  obtain ⟨r, buf, ibuf, hrun, hs⟩ := dirScan_spec hwf.healthy (hwf.inRange hn hd.hasTree) hd false
    true (isCalled name) (s.disk (v.recBlock n))
  rw [bind_of_some hrun]
  rcases hs with ⟨rfl, hnone⟩ | ⟨b, o, l₁, l₂, rfl, rfl, hrec, htest⟩
  · refine .inr ⟨buf, ibuf, rfl, fun x => not_mem_entries_of_searched hd ?_ hnone⟩
    intro b o l₁ l₂ hrec he
    obtain ⟨h0, -, hx⟩ := entryAt_eq_some.mp he
    exact (isCalled_iff (hnul hrec h0)).mpr (he.trans (by rw [hx]))
  · have h0 : recIno (s.dirBlock v (s.inode v n) b) o ≠ 0 := by
      rw [isCalled, decide_eq_true_iff] at htest
      exact htest.1
    refine .inl ⟨_, _, ibuf, rfl, hd.mem_entries.mpr ⟨b, o, l₁, l₂, hrec, ?_⟩⟩
    exact (isCalled_iff (hnul hrec h0)).mp htest

end

end BananaOS.Ext2
