import BananaOS.Ext2.DirInsert
import BananaOS.Lib.GuardedRun

/-!
# A directory is a map

`ext2_dir_insert` and `ext2_dir_find` with `ext2_dir_remove` are the operations of a finite map from
names to inodes.  The map is `Fs.entries`; what carries it over a sequence of operations is
`MapInv`: the directory is tiled, no name is there twice, and no name has a zero in it.
-/

namespace BananaOS.Ext2

open Bytes FailState BlockTree RecordChain GuardedRun

section

variable {v : Volume} {s s' : Fs} {i : Inode} {n : ℕ} {name : Name} {x ftype : ℕ}

/-! ## Removing -/

theorem dirRemove_spec (hwf : WellFormed v s) (hn : s.Live v n) (hd : DirOk v s (s.inode v n))
    {f : DirFind} {b : ℕ} {l₁ l₂ : List ℕ} (hf : FoundAt v s (s.inode v n) name f b l₁ l₂) :
    ∃ s', dirRemove v.m f s = (some (), s') ∧
      Edited v n b (removeRecord (s.dirBlock v (s.inode v n) b) f.curOff l₁.getLast?) s s' ∧
      DirOk v s' (s'.inode v n) ∧
      (s.entries v (s.inode v n)).Perm ((name, f.childIno) :: s'.entries v (s'.inode v n)) := by
  obtain ⟨hmax, h0⟩ := hd.present b hf.record.lt
  have hlt := hwf.inRange hn hd.hasTree _ (slotOf_valid hmax).1 h0
  rw [dirRemove, hf.blk, bind_of_some (readBlk_run hwf.healthy hlt), editBlk, modify_bind_run,
    writeBlk_run (v := v) (by exact hwf.healthy) hlt, hf.prev]
  obtain ⟨ht, hperm⟩ := hf.record.tiled.removeRecord_perm (blkSize_lt v).2 hf.entry
  -- the call also leaves the block in its buffer, which `Edited` does not read
  have hend : ∀ t, SameVars s t →
      t.disk = Function.update s.disk (s.block (s.inode v n) (slotOf v.m b))
        (removeRecord (s.dirBlock v (s.inode v n) b) f.curOff l₁.getLast?) →
      Edited v n b (removeRecord (s.dirBlock v (s.inode v n) b) f.curOff l₁.getLast?) s t ∧
      DirOk v t (t.inode v n) ∧
      (s.entries v (s.inode v n)).Perm ((name, f.childIno) :: t.entries v (t.inode v n)) := by
    intro t hvars hD
    have hed := hwf.editDir hn hd hf.record.lt hvars hD
    refine ⟨hed, hed.dir hd ht, ?_⟩
    rw [hed.record]
    exact hed.cons_entries hd hf.record.lt hperm
  exact ⟨_, rfl, hend _ ⟨rfl, rfl, rfl, rfl⟩ rfl⟩

/-! ## The invariant -/

structure MapInv (v : Volume) (n : ℕ) (s : Fs) : Prop where
  wf : WellFormed v s
  live : s.Live v n
  dir : DirOk v s (s.inode v n)
  unique : s.UniqueNames v (s.inode v n)
  cnames : s.CNames v (s.inode v n)

theorem unique_of_perm_cons {l l' : List (Name × ℕ)} (h : (l.map Prod.fst).Nodup)
    (hnew : ∀ y, (name, y) ∉ l) (hp : l'.Perm ((name, x) :: l)) : (l'.map Prod.fst).Nodup := by
  refine (hp.map Prod.fst).nodup_iff.mpr (List.nodup_cons.mpr ⟨fun hm => ?_, h⟩)
  obtain ⟨⟨name', y⟩, he, rfl⟩ := List.mem_map.mp hm
  exact hnew y he

theorem MapInv.inserted (h : MapInv v n s) (hnew : ∀ y, (name, y) ∉ s.entries v (s.inode v n))
    (hnul : (0 : Byte) ∉ name) (hi : Inserted v n name x ftype s s') : MapInv v n s' := by
  refine ⟨hi.outside.wf, hi.live, hi.dir, unique_of_perm_cons h.unique hnew hi.entries,
    fun e he => ?_⟩
  rcases List.mem_cons.mp (hi.entries.mem_iff.mp he) with rfl | he
  · exact hnul
  · exact h.cnames e he

theorem MapInv.removed (h : MapInv v n s) {b : ℕ} {p : Bytes} (hed : Edited v n b p s s')
    (hdir : DirOk v s' (s'.inode v n))
    (hp : (s.entries v (s.inode v n)).Perm ((name, x) :: s'.entries v (s'.inode v n))) :
    MapInv v n s' := by
  refine ⟨hed.outside.wf, hed.live, hdir, ?_, fun e he => ?_⟩
  · exact (List.nodup_cons.mp ((hp.map Prod.fst).nodup_iff.mp h.unique)).2
  · exact h.cnames e (hp.mem_iff.mpr (List.mem_cons_of_mem _ he))

/-! ## Looking up -/

/-- `ext2_lookup` with nothing in its cache. -/
def lookupUncached (m : Mount) (parent : ℕ) (name : Name) : Ext2M ℕ := do
  dcacheFlush
  lookup m parent name

theorem dcacheLookup_eq_none (h : ∀ k < dcacheSlots, (s.dcache k).valid = false) (parent : ℕ)
    (name : Name) : dcacheLookup s parent name = none := by
  rw [dcacheLookup, Option.map_eq_none_iff, List.find?_eq_none]
  intro k hk
  rw [decide_eq_true_iff]
  rintro ⟨hvalid, -⟩
  rw [h k (List.mem_range.mp hk)] at hvalid
  cases hvalid

theorem dcacheFlush_invalid (s : Fs) : ∀ k < dcacheSlots,
    ((dcacheFlush s).2.dcache k).valid = false := by
  intro k hk
  rw [dcacheFlush, modify_run]
  simp only [if_pos hk]

theorem lookupUncached_run (parent : ℕ) (h0 : name ≠ []) :
    (lookupUncached v.m parent name s).1 =
      (readDir v.m parent (isCalled name) (dcacheFlush s).2).1.bind id := by
  have hguard : ¬ (v.m.mounted = false ∨ name = []) := by
    rw [v.mounted]
    simp [h0]
  rw [lookupUncached, bind_of_some (show dcacheFlush s = (some (), (dcacheFlush s).2) from rfl),
    lookup, if_neg hguard, gets_bind_run, dcacheLookup_eq_none (dcacheFlush_invalid s)]
  simp only
  rw [bind_run]
  rcases readDir v.m parent (isCalled name) (dcacheFlush s).2 with ⟨_ | _ | y, t⟩ <;> rfl

theorem MapInv.lookup_eq_find (h : MapInv v n s) (name : Name) :
    (lookupUncached v.m n name s).1 = (dirFind v.m n name s).1.map DirFind.childIno := by
  by_cases h0 : name = []
  · -- both refuse the empty name
    obtain ⟨buf, hf⟩ := dirFind_of_length h.wf.toMetaInv h.live.1
      name (.inl (by rw [h0]; rfl))
    rw [hf, lookupUncached, bind_of_some (show dcacheFlush s = (some (), (dcacheFlush s).2) from rfl),
      lookup, if_pos (.inr h0)]
    rfl
  · rw [lookupUncached_run n h0]
    have hwf : WellFormed v (dcacheFlush s).2 :=
      ⟨h.wf.toMetaInv.of_disk rfl rfl, h.wf.metaUsed, h.wf.sound⟩
    have hd : DirOk v (dcacheFlush s).2 ((dcacheFlush s).2.inode v n) :=
      ⟨h.dir.isDir, h.dir.size_le, h.dir.present, h.dir.tiled⟩
    by_cases hlen : name.length ≤ 255
    · rcases readDir_spec hwf h.live hd h.cnames name with ⟨y, b1, b2, hr, hy⟩ | ⟨b1, b2, hr, hno⟩ <;>
        rcases dirFind_spec h.wf h.live h.dir h0 hlen with
          ⟨f, b, l₁, l₂, b3, b4, hf, hfound⟩ | ⟨b3, b4, hf, hno'⟩ <;> rw [hr, hf]
      · exact congrArg some (h.unique.eq hy (hfound.mem h.dir))
      · exact absurd hy (hno' y)
      · exact absurd (hfound.mem h.dir) (hno _)
      · rfl
    · -- no record has a name of that length
      obtain ⟨buf, hf⟩ := dirFind_of_length h.wf.toMetaInv h.live.1
        name (.inr (not_le.mp hlen))
      rcases readDir_spec hwf h.live hd h.cnames name with ⟨y, b1, b2, hr, hy⟩ | ⟨b1, b2, hr, -⟩
      · exact absurd (hd.length_le hy) hlen
      · rw [hr, hf]
        rfl

/-! ## Sequences of operations -/

inductive DirEvent where
  | insert (name : Name) (x ftype : ℕ)
  | remove (name : Name)

def dirStep (m : Mount) (n : ℕ) (s : Fs) : DirEvent → Option Fs
  | .insert name x ftype =>
    match dirInsert m n name x ftype s with
    | (some _, s') => some s'
    | (none, _) => none
  | .remove name =>
    match (dirFind m n name >>= dirRemove m) s with
    | (some _, s') => some s'
    | (none, _) => none

/-- An absent name is inserted, and there is room for it; or a present one is removed.  A record can
have an empty name, but no call can ask for it. -/
def DirAllowed (v : Volume) (n : ℕ) (s : Fs) : DirEvent → Prop
  | .insert name x _ =>
    name ≠ [] ∧ name.length ≤ 255 ∧ (0 : Byte) ∉ name ∧ slash ∉ name ∧ x ≠ 0 ∧ x < 2 ^ 32 ∧
      (∀ y, (name, y) ∉ s.entries v (s.inode v n)) ∧
      (HasSlot v s (s.inode v n) name ∨ Appendable v s (s.inode v n))
  | .remove name => name ≠ [] ∧ ∃ x, (name, x) ∈ s.entries v (s.inode v n)

def MapStep (before after : Set (Name × ℕ)) : DirEvent → Prop
  | .insert name x _ => after = insert (name, x) before
  | .remove name => ∃ x, (name, x) ∈ before ∧ after = before \ {(name, x)}

def Fs.map (s : Fs) (v : Volume) (n : ℕ) : Set (Name × ℕ) := {e | e ∈ s.entries v (s.inode v n)}

theorem MapInv.step (h : MapInv v n s) {e : DirEvent} (he : DirAllowed v n s e) :
    ∃ s', dirStep v.m n s e = some s' ∧ MapInv v n s' ∧
      MapStep (s.map v n) (s'.map v n) e := by
  cases e with
  | insert name x ftype =>
    obtain ⟨h0, hlen, hnul, -, hx, hx32, hnew, hroom⟩ := he
    rcases dirInsert_spec ftype h.wf h.live h.dir h0 hlen hx hx32 with
      ⟨s', hrun, hi⟩ | ⟨hslot, happ, -⟩
    · refine ⟨s', ?_, h.inserted hnew hnul hi, Set.ext fun e => ?_⟩
      · simp only [dirStep, hrun]
      · exact hi.entries.mem_iff.trans List.mem_cons
    · exact absurd hroom (not_or.mpr ⟨hslot, happ⟩)
  | remove name =>
    obtain ⟨h0, x, hx⟩ := he
    rcases dirFind_spec h.wf h.live h.dir h0 (h.dir.length_le hx) with
      ⟨f, b, l₁, l₂, buf, ibuf, hrun, hf⟩ | ⟨_, _, -, hno⟩
    · -- the buffers of the search do not matter to the edit
      set t : Fs := { s with blkbuf := buf, indbuf := ibuf } with ht
      have hinv : MapInv v n t := ⟨h.wf.bufs buf ibuf, h.live,
        ⟨h.dir.isDir, h.dir.size_le, h.dir.present, h.dir.tiled⟩, h.unique, h.cnames⟩
      have hft : FoundAt v t (t.inode v n) name f b l₁ l₂ :=
        ⟨⟨hf.record.lt, hf.record.tiled⟩, hf.entry, hf.blk, hf.prev⟩
      obtain ⟨s', hrem, hed, hdir, hperm⟩ := dirRemove_spec hinv.wf hinv.live hinv.dir hft
      refine ⟨s', ?_, hinv.removed hed hdir hperm, f.childIno, hf.mem h.dir, Set.ext fun e => ?_⟩
      · simp only [dirStep, bind_of_some hrun, hrem]
      · -- no other entry has this name
        have hnd := (List.nodup_cons.mp (((hperm.map Prod.fst).nodup_iff).mp hinv.unique)).1
        have hmem := hperm.mem_iff (a := e)
        rw [List.mem_cons] at hmem
        constructor
        · intro he
          refine ⟨hmem.mpr (.inr he), ?_⟩
          rintro rfl
          exact hnd (List.mem_map.mpr ⟨_, he, rfl⟩)
        · rintro ⟨he, hne⟩
          exact (hmem.mp he).resolve_left hne
    · exact absurd hx (hno x)

/-- **A directory is a map.**  Start from a tiled directory with unique names that are C strings.
After any sequence of allowed operations it is again tiled, each operation that is allowed then
succeeds and changes the map by exactly its pair, and the two searches agree on every name. -/
theorem directory_is_map (h : MapInv v n s) {es : List DirEvent}
    (hrun : Run (dirStep v.m n) (DirAllowed v n) s es s') :
    DirOk v s' (s'.inode v n) ∧ s'.UniqueNames v (s'.inode v n) ∧
    (∀ e, DirAllowed v n s' e → ∃ t, dirStep v.m n s' e = some t ∧ DirOk v t (t.inode v n) ∧
      MapStep (s'.map v n) (t.map v n) e) ∧
    ∀ name, (lookupUncached v.m n name s').1 =
      (dirFind v.m n name s').1.map DirFind.childIno := by
  have hinv : MapInv v n s' := hrun.invariant (fun t e t' ht hok hstep => by
    obtain ⟨u, hu, hinv, -⟩ := ht.step hok
    cases hu.symm.trans hstep
    exact hinv) h
  refine ⟨hinv.dir, hinv.unique, fun e he => ?_, hinv.lookup_eq_find⟩
  obtain ⟨t, ht, hinv', hmap⟩ := hinv.step he
  exact ⟨t, ht, hinv'.dir, hmap⟩

/-! ## On the sample volume -/

theorem sampleRoot_mapInv : MapInv sampleVolume 2 sampleFs where
  wf := sampleFs_wellFormed
  live := ⟨⟨by decide, by decide⟩, by decide⟩
  dir := by
    rw [sampleFs_inode_root]
    refine ⟨by decide, by decide, by decide, fun b hb => ⟨[0, 12, 24, 36], ?_⟩⟩
    obtain rfl : b = 0 := Nat.lt_one_iff.mp hb
    decide +kernel
  unique := by
    rw [Fs.UniqueNames]
    decide +kernel
  cnames := by
    rw [Fs.CNames]
    decide +kernel

/-- `b` goes into the free record at 36 and comes out again. -/
theorem directory_is_map_sample : ∃ s, Run (dirStep sampleVolume.m 2) (DirAllowed sampleVolume 2)
    sampleFs [.insert [98] 11 ftReg, .remove [98]] s ∧
    DirOk sampleVolume s (s.inode sampleVolume 2) ∧
    ∀ name, (lookupUncached sampleVolume.m 2 name s).1 =
      (dirFind sampleVolume.m 2 name s).1.map DirFind.childIno := by
  have hins : DirAllowed sampleVolume 2 sampleFs (.insert [98] 11 ftReg) := by
    refine ⟨by decide, by decide, by decide, by decide, by decide, by decide, fun y hy => ?_,
      .inl ⟨0, 36, [0, 12, 24], [], ⟨by decide, by decide +kernel⟩, by decide +kernel⟩⟩
    have hnames : [98] ∉ (sampleFs.entries sampleVolume (sampleFs.inode sampleVolume 2)).map
      Prod.fst := by decide +kernel
    exact hnames (List.mem_map.mpr ⟨_, hy, rfl⟩)
  obtain ⟨t, ht, hinv, hmap⟩ := sampleRoot_mapInv.step hins
  have hrem : DirAllowed sampleVolume 2 t (.remove [98]) := by
    refine ⟨by decide, 11, ?_⟩
    have hmem : ([98], 11) ∈ t.map sampleVolume 2 := by
      rw [show t.map sampleVolume 2 = _ from hmap]
      exact Set.mem_insert _ _
    exact hmem
  obtain ⟨u, hu, -, -⟩ := hinv.step hrem
  have hrun : Run (dirStep sampleVolume.m 2) (DirAllowed sampleVolume 2) sampleFs
      [.insert [98] 11 ftReg, .remove [98]] u := .cons hins ht (.cons hrem hu (.nil _))
  obtain ⟨hd, -, -, hagree⟩ := directory_is_map sampleRoot_mapInv hrun
  exact ⟨u, hrun, hd, hagree⟩

/-- The sample volume with the name of the file three bytes long: `a`, a zero and `b`. -/
def nulNameFs : Fs :=
  { sampleFs with
    disk := Function.update sampleDisk 9 (wr8 (wr8 (wr8 (sampleDisk 9) 30 3) 33 0) 34 98) }

/-- **The two searches can disagree**: the directory is tiled and its names are unique, but
`ext2_lookup` takes the name for `a` and `ext2_dir_find` does not. -/
theorem lookup_ne_find_of_nul : ∃ s : Fs, WellFormed sampleVolume s ∧ s.Live sampleVolume 2 ∧
    DirOk sampleVolume s (s.inode sampleVolume 2) ∧
    s.UniqueNames sampleVolume (s.inode sampleVolume 2) ∧
    (lookupUncached sampleVolume.m 2 [97] s).1 = some 11 ∧
    (dirFind sampleVolume.m 2 [97] s).1.map DirFind.childIno = none := by
  have hinv := sampleRoot_mapInv
  have hed : Edited sampleVolume 2 0 _ sampleFs nulNameFs :=
    hinv.wf.editDir hinv.live hinv.dir (by decide) ⟨rfl, rfl, rfl, rfl⟩
      (by rw [sampleFs_inode_root]; rfl)
  refine ⟨nulNameFs, hed.outside.wf, hed.live,
    hed.dir hinv.dir ⟨[0, 12, 24, 36], by decide +kernel⟩, ?_, by decide +kernel,
    by decide +kernel⟩
  rw [Fs.UniqueNames]
  decide +kernel

end

end BananaOS.Ext2
