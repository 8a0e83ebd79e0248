import BananaOS.Ext2.DirMap
import BananaOS.Ext2.OpenFile

/-!
# Listing a directory

`ext2_getdents` walks the directory from the beginning and skips what starts before the offset of
the descriptor.  The offset counts bytes over all records, free ones included, and over all blocks.
When a record does not fit into the buffer of the caller, its place becomes the new offset; so a
call may leave off anywhere, between two records of one block or between two blocks, and the next
one goes on there, whatever its buffer.
-/

namespace BananaOS.Ext2

open Bytes FailState RecordChain

/-! ## The call -/

/-- A `linux_dirent64`, with the place of its record in the directory. -/
structure Dirent where
  start : ℕ
  /-- `d_off`, the place of the record behind. -/
  next : ℕ
  ino : ℕ
  ftype : Byte
  name : Name

/-- `d_reclen`: 20 bytes and the name, rounded up to 8. -/
def Dirent.reclen (e : Dirent) : ℕ := (20 + e.name.length + 7) / 8 * 8

/-- Write a `linux_dirent64` at `q`. -/
def putDirent (buf : Bytes) (q : ℕ) (e : Dirent) : Bytes :=
  let buf := wr64 buf q e.ino
  let buf := wr64 buf (q + 8) e.next
  let buf := wr16 buf (q + 16) e.reclen
  let buf := wr8 buf (q + 18) e.ftype.toNat
  let buf := copyIn buf (q + 19) e.name.length (nameBytes e.name)
  wr8 buf (q + 19 + e.name.length) 0

/-- The variables of `ext2_getdents`: the buffer of the caller, `written`, and `entry_off`, which
becomes `*next_off` at the end. -/
structure Getdents where
  buf : Bytes
  written : ℕ
  entryOff : ℕ

/-- The loop over the records of a block, from `o` on.  The flag says that a record did not fit. -/
def getdentsBlock (m : Mount) (p : Bytes) (off size : ℕ) : ℕ → ℕ → Getdents → Bool × Getdents
  | 0, _, g => (false, g)
  | n + 1, o, g =>
    if o + 8 ≤ m.blkSize then
      if recLen p o = 0 then (false, g)
      else
        let thisOff := g.entryOff
        let g := { g with entryOff := g.entryOff + recLen p o }
        if recIno p o = 0 ∨ thisOff < off then getdentsBlock m p off size n (o + recLen p o) g
        else if recNameLen p o = 0 then getdentsBlock m p off size n (o + recLen p o) g
        else
          let e : Dirent := ⟨thisOff, g.entryOff, recIno p o, p (o + 7), recName p o⟩
          if size < g.written + e.reclen then (true, { g with entryOff := thisOff })
          else
            getdentsBlock m p off size n (o + recLen p o)
              { g with buf := putDirent g.buf g.written e, written := g.written + e.reclen }
    else (false, g)

/-- The loop over the blocks, `n` of them from `b` on; `none` if a block cannot be read. -/
def getdentsLoop (m : Mount) (i : Inode) (off size : ℕ) :
    ℕ → ℕ → Getdents → Ext2M (Option ℕ × Getdents)
  | 0, _, g => pure (some g.written, g)
  | n + 1, b, g => do
    let blk ← dataBlock m i b
    if blk = 0 then pure (some g.written, g)
    else
      match ← attempt (readBlk m blk) with
      | none => pure (none, g)
      | some _ =>
        let r ← gets fun s => getdentsBlock m s.blkbuf off size m.blkSize 0 g
        if r.1 = true then pure (some r.2.written, r.2) else getdentsLoop m i off size n (b + 1) r.2

/-- `ext2_getdents`. -/
def getdents (m : Mount) (ino off : ℕ) (buf : Bytes) (size : ℕ) :
    Ext2M (Option ℕ × Getdents) := do
  if m.mounted = false ∨ size = 0 then fail
  else
    let i ← readInode m ino
    if i.type ≠ ifDir then fail else getdentsLoop m i off size (dirBlocks m i) 0 ⟨buf, 0, 0⟩

/-- `sys_getdents64` of a descriptor, with the buffer of the caller. -/
def sysGetdents64 (m : Mount) (f : FileT) (buf : Bytes) (count : ℕ) (s : Fs) :
    ℤ × Bytes × FileT × Fs :=
  if f.fType ≠ ifDir then (-20, buf, f, s)
  else
    match getdents m f.ino f.offset buf count s with
    | (none, s') => (-21, buf, f, s')
    | (some (none, g), s') => (-21, g.buf, f, s')
    | (some (some written, g), s') =>
      if toInt32 written < 0 then (-21, g.buf, f, s')
      else (toInt32 written, g.buf, { f with offset := g.entryOff }, s')

/-! ## Records in a buffer -/

structure DirentAt (buf : Bytes) (q : ℕ) (e : Dirent) : Prop where
  ino : rd64 buf q = e.ino
  off : rd64 buf (q + 8) = e.next
  reclen : rd16 buf (q + 16) = e.reclen
  ftype : buf (q + 18) = e.ftype
  name : slice buf (q + 19) e.name.length = e.name
  nul : buf (q + 19 + e.name.length) = 0

def Laid (buf : Bytes) : ℕ → List Dirent → Prop
  | _, [] => True
  | q, e :: es => DirentAt buf q e ∧ Laid buf (q + e.reclen) es

def total (es : List Dirent) : ℕ := (es.map Dirent.reclen).sum

variable {o n b : ℕ} {g : Getdents}

theorem total_cons (e : Dirent) (es : List Dirent) : total (e :: es) = e.reclen + total es := by
  rw [total, List.map_cons, List.sum_cons]
  rfl

theorem total_append (es es' : List Dirent) : total (es ++ es') = total es + total es' := by
  rw [total, List.map_append, List.sum_append]
  rfl

structure Dirent.Fits (e : Dirent) : Prop where
  ino : e.ino < 2 ^ 32
  next : e.next < 2 ^ 64
  name : e.name.length ≤ 255

theorem Dirent.le_reclen (e : Dirent) : 20 + e.name.length ≤ e.reclen := by
  rw [Dirent.reclen]
  omega

theorem Dirent.Fits.reclen_le {e : Dirent} (h : e.Fits) : e.reclen ≤ 280 := by
  have := h.name
  rw [Dirent.reclen]
  omega

variable {buf buf' : Bytes} {q : ℕ} {e : Dirent} {es : List Dirent}

theorem putDirent_out {j : ℕ} (h : j < q ∨ q + e.reclen ≤ j) : putDirent buf q e j = buf j := by
  have hlen := e.le_reclen
  simp only [putDirent]
  rw [wr8_ne (by omega), copyIn_out (by omega), wr8_ne (by omega), wr16_out (by omega),
    wr64_out (by omega), wr64_out (by omega)]

theorem DirentAt.congr (h : DirentAt buf q e)
    (hsame : ∀ j, q ≤ j → j < q + e.reclen → buf' j = buf j) : DirentAt buf' q e := by
  have hlen := e.le_reclen
  refine ⟨?_, ?_, ?_, ?_, ?_, ?_⟩
  · rw [← h.ino]
    exact rd64_congr fun k hk => hsame _ (by omega) (by omega)
  · rw [← h.off]
    exact rd64_congr fun k hk => hsame _ (by omega) (by omega)
  · rw [← h.reclen]
    exact rd16_congr fun k hk => hsame _ (by omega) (by omega)
  · rw [← h.ftype]
    exact hsame _ (by omega) (by omega)
  · refine Eq.trans ?_ h.name
    exact slice_congr fun k hk => hsame _ (by omega) (by omega)
  · rw [← h.nul]
    exact hsame _ (by omega) (by omega)

theorem slice_nameBytes (p : Bytes) (o : ℕ) (name : Name) :
    slice (copyIn p o name.length (nameBytes name)) o name.length = name := by
  refine List.ext_getElem (length_slice _ _ _) fun k hk hk' => ?_
  rw [length_slice] at hk
  simp only [slice, List.getElem_map, List.getElem_range]
  rw [copyIn_in (by omega) (by omega), Nat.add_sub_cancel_left, nameBytes,
    List.getD_eq_getElem _ _ hk]

theorem direntAt_putDirent (buf : Bytes) (q : ℕ) (he : e.Fits) :
    DirentAt (putDirent buf q e) q e := by
  have hino := he.ino
  have hname := he.name
  refine ⟨?_, ?_, ?_, ?_, ?_, ?_⟩
  · have hlt : e.ino < 2 ^ 64 := by omega
    refine Eq.trans (rd64_congr fun k hk => ?_) (rd64_wr64 buf (o := q) hlt)
    simp only [putDirent]
    rw [wr8_ne (by omega), copyIn_out (by omega), wr8_ne (by omega), wr16_out (by omega),
      wr64_out (by omega)]
  · refine Eq.trans (rd64_congr fun k hk => ?_) (rd64_wr64 (wr64 buf q e.ino) (o := q + 8) he.next)
    simp only [putDirent]
    rw [wr8_ne (by omega), copyIn_out (by omega), wr8_ne (by omega), wr16_out (by omega)]
  · refine Eq.trans (rd16_congr fun k hk => ?_)
      ((rd16_wr16 (wr64 (wr64 buf q e.ino) (q + 8) e.next) (q + 16) e.reclen).trans ?_)
    · simp only [putDirent]
      rw [wr8_ne (by omega), copyIn_out (by omega), wr8_ne (by omega)]
    · have := he.reclen_le
      exact Nat.mod_eq_of_lt (by omega)
  · simp only [putDirent]
    rw [wr8_ne (by omega), copyIn_out (by omega), wr8_same, byteOf, Nat.pow_zero, Nat.div_one,
      BitVec.ofNat_toNat, BitVec.setWidth_eq]
  · simp only [putDirent]
    exact (slice_congr fun k hk => wr8_ne (by omega)).trans (slice_nameBytes _ (q + 19) e.name)
  · simp only [putDirent]
    exact wr8_same _ _ _

/-! ## Filling a buffer -/

/-- Records go into a buffer of `size` bytes one after the other, until one does not fit; `endOff`
is the place behind the last one. -/
def emit (size endOff : ℕ) : List Dirent → Getdents → Bool × Getdents
  | [], g => (false, { g with entryOff := endOff })
  | e :: es, g =>
    if size < g.written + e.reclen then (true, { g with entryOff := e.start })
    else emit size endOff es ⟨putDirent g.buf g.written e, g.written + e.reclen, e.next⟩

theorem emit_entryOff (size endOff x : ℕ) (es : List Dirent) (g : Getdents) :
    emit size endOff es { g with entryOff := x } = emit size endOff es g := by
  cases es with
  | nil => rfl
  | cons e es => rfl

theorem emit_append (size a endOff : ℕ) (es es' : List Dirent) (g : Getdents) :
    emit size endOff (es ++ es') g =
      if (emit size a es g).1 = true then emit size a es g
      else emit size endOff es' (emit size a es g).2 := by
  induction es generalizing g with
  | nil => exact (emit_entryOff size endOff a es' g).symm
  | cons e es ih =>
    rw [List.cons_append, emit, emit]
    by_cases hfull : size < g.written + e.reclen
    · rw [if_pos hfull, if_pos hfull, if_pos rfl]
    · rw [if_neg hfull, if_neg hfull]
      exact ih _

theorem entryOff_of_not_full {size endOff : ℕ}
    (h : (emit size endOff es g).1 ≠ true) : (emit size endOff es g).2.entryOff = endOff := by
  induction es generalizing g with
  | nil => rfl
  | cons e es ih =>
    rw [emit] at h ⊢
    by_cases hfull : size < g.written + e.reclen
    · rw [if_pos hfull] at h
      exact absurd rfl h
    · rw [if_neg hfull] at h ⊢
      exact ih h

/-- What `emit` leaves behind: `taken` is in the buffer, and `rest` is not. -/
structure Emitted (size endOff : ℕ) (g : Getdents) (taken rest : List Dirent) (g' : Getdents) :
    Prop where
  written : g'.written = g.written + total taken
  fits : g'.written ≤ size
  laid : Laid g'.buf g.written taken
  out : ∀ j, j < g.written ∨ g'.written ≤ j → g'.buf j = g.buf j
  stop : ∀ e ∈ rest.head?, g'.entryOff = e.start ∧ size < g'.written + e.reclen
  atEnd : rest = [] → g'.entryOff = endOff

theorem emit_spec (size endOff : ℕ) (hg : g.written ≤ size)
    (hes : ∀ e ∈ es, e.Fits) : ∃ taken rest, es = taken ++ rest ∧
      Emitted size endOff g taken rest (emit size endOff es g).2 := by
  induction es generalizing g with
  | nil =>
    exact ⟨[], [], rfl, ⟨rfl, hg, trivial, fun _ _ => rfl, fun e he => (nomatch he), fun _ => rfl⟩⟩
  | cons e es ih =>
    rw [emit]
    by_cases hfull : size < g.written + e.reclen
    · rw [if_pos hfull]
      refine ⟨[], e :: es, rfl, ⟨rfl, hg, trivial, fun _ _ => rfl, ?_, fun h => (nomatch h)⟩⟩
      rintro _ ⟨⟩
      exact ⟨rfl, hfull⟩
    · rw [if_neg hfull]
      obtain ⟨taken, rest, rfl, h⟩ := ih
        (g := ⟨putDirent g.buf g.written e, g.written + e.reclen, e.next⟩) (not_lt.mp hfull)
        (fun x hx => hes x (List.mem_cons_of_mem e hx))
      have hwritten := h.written
      dsimp only at hwritten
      refine ⟨e :: taken, rest, rfl, ⟨?_, h.fits, ⟨?_, h.laid⟩, fun j hj => ?_, h.stop, h.atEnd⟩⟩
      · rw [hwritten, total_cons, Nat.add_assoc]
      · -- later records are written behind this one
        refine (direntAt_putDirent g.buf g.written (hes e List.mem_cons_self)).congr ?_
        exact fun j _ hj => h.out j (.inl hj)
      · have hlen := e.le_reclen
        rw [h.out j (by dsimp only; omega)]
        exact putDirent_out (by omega)

/-! ## The records in use -/

/-- What the record at `o` gives the caller, if it is in use; `base` is the place of its block. -/
def direntOf (p : Bytes) (base o : ℕ) : Option Dirent :=
  if recIno p o = 0 then none
  else some ⟨base + o, base + (o + recLen p o), recIno p o, p (o + 7), recName p o⟩

def blockDirents (size : ℕ) (p : Bytes) (base : ℕ) : List Dirent :=
  (blockOffsets size p).filterMap (direntOf p base)

def Fs.direntsFrom (s : Fs) (v : Volume) (i : Inode) (n b : ℕ) : List Dirent :=
  (List.range' b n).flatMap fun c => blockDirents v.m.blkSize (s.dirBlock v i c) (c * v.m.blkSize)

/-- **The records in use of a directory**, in order. -/
def Fs.dirents (s : Fs) (v : Volume) (i : Inode) : List Dirent :=
  s.direntsFrom v i (dirBlocks v.m i) 0

def ahead (off : ℕ) (es : List Dirent) : List Dirent := es.filter fun e => decide (off ≤ e.start)

theorem Fs.direntsFrom_succ (s : Fs) (v : Volume) (i : Inode) (n b : ℕ) :
    s.direntsFrom v i (n + 1) b =
      blockDirents v.m.blkSize (s.dirBlock v i b) (b * v.m.blkSize) ++
        s.direntsFrom v i n (b + 1) := by
  rw [Fs.direntsFrom, List.range'_succ, List.flatMap_cons]
  rfl

theorem ahead_zero (es : List Dirent) : ahead 0 es = es :=
  List.filter_eq_self.mpr fun e _ => decide_eq_true (Nat.zero_le e.start)

theorem ahead_append (off : ℕ) (es es' : List Dirent) :
    ahead off (es ++ es') = ahead off es ++ ahead off es' := List.filter_append _ _

theorem entryAt_eq_map (p : Bytes) (base o : ℕ) :
    entryAt p o = (direntOf p base o).map fun e => (e.name, e.ino) := by
  by_cases h : recIno p o = 0
  · rw [entryAt_of_free h, direntOf, if_pos h, Option.map_none]
  · rw [entryAt_of_live h, direntOf, if_neg h, Option.map_some]

variable {v : Volume} {s : Fs} {i : Inode}

theorem dirents_map (v : Volume) (s : Fs) (i : Inode) :
    (s.dirents v i).map (fun e => (e.name, e.ino)) = s.entries v i := by
  rw [Fs.dirents, Fs.direntsFrom, Fs.entries, List.map_flatMap, List.range_eq_range']
  refine List.flatMap_congr fun b _ => ?_
  rw [blockDirents, blockEntries, List.map_filterMap]
  exact List.filterMap_congr fun o _ => (entryAt_eq_map _ _ o).symm

theorem direntOf_eq_some {p : Bytes} {base : ℕ} (h : direntOf p base o = some e) : recIno p o ≠ 0 ∧
      e = ⟨base + o, base + (o + recLen p o), recIno p o, p (o + 7), recName p o⟩ := by
  by_cases h0 : recIno p o = 0
  · rw [direntOf, if_pos h0] at h
    cases h
  · rw [direntOf, if_neg h0] at h
    exact ⟨h0, (Option.some.inj h).symm⟩

theorem mem_direntsFrom (he : e ∈ s.direntsFrom v i n b) : ∃ c o, b ≤ c ∧ c < b + n ∧
    o ∈ blockOffsets v.m.blkSize (s.dirBlock v i c) ∧
    direntOf (s.dirBlock v i c) (c * v.m.blkSize) o = some e := by
  rw [Fs.direntsFrom, List.mem_flatMap] at he
  obtain ⟨c, hc, he⟩ := he
  obtain ⟨o, ho, he⟩ := List.mem_filterMap.mp he
  have hc := List.mem_range'_1.mp hc
  exact ⟨c, o, hc.1, hc.2, ho, he⟩

theorem DirOk.start_bounds (hd : DirOk v s i) {c : ℕ} (hc : c < dirBlocks v.m i)
    (ho : o ∈ blockOffsets v.m.blkSize (s.dirBlock v i c)) :
    8 ≤ recLen (s.dirBlock v i c) o ∧ o + recLen (s.dirBlock v i c) o ≤ v.m.blkSize := by
  obtain ⟨l, hl⟩ := hd.tiled c hc
  rw [hl.offsets_eq] at ho
  exact (hl.chain.mem ho).2

theorem dirBlocks_mul_le (v : Volume) (i : Inode) : dirBlocks v.m i * v.m.blkSize ≤ 2 ^ 32 := by
  exact le_trans (Nat.div_mul_le_self _ _) (Nat.le_of_lt (Nat.mod_lt _ (by decide)))

theorem DirOk.fits (hd : DirOk v s i) (he : e ∈ s.dirents v i) :
    e.Fits ∧ e.start < dirBlocks v.m i * v.m.blkSize := by
  obtain ⟨c, o, -, hc, ho, he⟩ := mem_direntsFrom he
  rw [Nat.zero_add] at hc
  obtain ⟨hlen, hend⟩ := hd.start_bounds hc ho
  obtain ⟨-, rfl⟩ := direntOf_eq_some he
  have hle : (c + 1) * v.m.blkSize ≤ dirBlocks v.m i * v.m.blkSize := Nat.mul_le_mul_right _ hc
  have hmax := dirBlocks_mul_le v i
  rw [Nat.succ_mul] at hle
  refine ⟨⟨rd32_lt _ _, ?_, ?_⟩, ?_⟩
  · dsimp only
    omega
  · dsimp only
    rw [length_recName]
    exact Nat.le_of_lt_succ (BitVec.isLt _)
  · dsimp only
    omega

theorem DirOk.pairwise_start (hd : DirOk v s i) (hb : b + n ≤ dirBlocks v.m i) :
    (s.direntsFrom v i n b).Pairwise fun e e' => e.start < e'.start := by
  rw [Fs.direntsFrom, List.pairwise_flatMap]
  constructor
  · -- in a block the offsets of the chain increase
    intro c hc
    obtain ⟨l, hl⟩ := hd.tiled c (by have := (List.mem_range'_1.mp hc).2; omega)
    rw [blockDirents, hl.offsets_eq, List.pairwise_filterMap]
    refine (hl.chain.pairwise_lt (by decide)).imp fun {o o'} hlt e he e' he' => ?_
    obtain ⟨-, rfl⟩ := direntOf_eq_some he
    obtain ⟨-, rfl⟩ := direntOf_eq_some he'
    dsimp only
    omega
  · -- a block ends where the next one starts
    refine List.Pairwise.imp_of_mem (fun {c c'} hc hc' hlt e he e' he' => ?_)
      List.pairwise_lt_range'
    obtain ⟨o, ho, he⟩ := List.mem_filterMap.mp he
    obtain ⟨o', ho', he'⟩ := List.mem_filterMap.mp he'
    obtain ⟨hlen, hend⟩ := hd.start_bounds (by have := (List.mem_range'_1.mp hc).2; omega) ho
    obtain ⟨-, rfl⟩ := direntOf_eq_some he
    obtain ⟨-, rfl⟩ := direntOf_eq_some he'
    have hle : (c + 1) * v.m.blkSize ≤ c' * v.m.blkSize := Nat.mul_le_mul_right _ hlt
    rw [Nat.succ_mul] at hle
    dsimp only
    omega

/-! ## A call fills the buffer -/

theorem getdentsBlock_eq (base off size : ℕ) {p : Bytes} {l : List ℕ}
    (hl : Chain 8 (recLen p) v.m.blkSize o l)
    (hnames : ∀ x ∈ l, recIno p x ≠ 0 → recNameLen p x ≠ 0) (hn : v.m.blkSize - o ≤ n)
    (hg : g.entryOff = base + o) :
    getdentsBlock v.m p off size n o g =
      emit size (base + v.m.blkSize) (ahead off (l.filterMap (direntOf p base))) g := by
  induction hl generalizing n g with
  | nil =>
    have hg' : { g with entryOff := base + v.m.blkSize } = g := by rw [← hg]
    rw [List.filterMap_nil, ahead, List.filter_nil, emit, hg']
    cases n with
    | zero => rfl
    | succ n => rw [getdentsBlock, if_neg (by omega)]
  | @cons o l hlen hrest ih =>
    have hle := hrest.le
    cases n with
    | zero => omega
    | succ n =>
      rw [getdentsBlock, if_pos (by omega), if_neg (by omega)]
      have ih' := fun (g : Getdents) (hg' : g.entryOff = base + (o + recLen p o)) =>
        ih (fun x hx => hnames x (List.mem_cons_of_mem o hx)) (n := n) (by omega) hg'
      have hoff : g.entryOff + recLen p o = base + (o + recLen p o) := by omega
      by_cases hfree : recIno p o = 0
      · have hnone : direntOf p base o = none := if_pos hfree
        rw [if_pos (.inl hfree), ih' _ hoff, List.filterMap_cons_none hnone, emit_entryOff]
      · have hsome : direntOf p base o = some ⟨base + o, base + (o + recLen p o), recIno p o,
          p (o + 7), recName p o⟩ := if_neg hfree
        rw [List.filterMap_cons_some hsome, ahead]
        by_cases hbehind : g.entryOff < off
        · rw [if_pos (.inr hbehind), ih' _ hoff, emit_entryOff,
            List.filter_cons_of_neg (by simp; omega), ← ahead]
        · rw [if_neg (by tauto), if_neg (hnames o List.mem_cons_self hfree),
            List.filter_cons_of_pos (by simp; omega), ← ahead, emit]
          simp only [hg, Nat.add_assoc]
          by_cases hfull : size < g.written + Dirent.reclen ⟨base + o, base + (o + recLen p o),
            recIno p o, p (o + 7), recName p o⟩
          · rw [if_pos hfull, if_pos hfull]
          · rw [if_neg hfull, if_neg hfull]
            exact ih' _ rfl

theorem DirOk.recNameLen_ne_zero (hd : DirOk v s i) (hnames : ∀ e ∈ s.entries v i, e.1 ≠ [])
    {l : List ℕ} (hb : b < dirBlocks v.m i) (hl : Tiled v.m.blkSize (s.dirBlock v i b) l) :
    ∀ o ∈ l, recIno (s.dirBlock v i b) o ≠ 0 → recNameLen (s.dirBlock v i b) o ≠ 0 := by
  intro o ho hlive
  obtain ⟨l₁, l₂, rfl⟩ := List.append_of_mem ho
  have hmem := hd.mem_entries.mpr ⟨b, o, l₁, l₂, ⟨hb, hl⟩, entryAt_of_live hlive⟩
  rw [← length_recName]
  exact fun h => hnames _ hmem (List.length_eq_zero_iff.mp h)

theorem getdentsLoop_run (hd : DirOk v s i) (hr : s.InRange v i)
    (hnames : ∀ e ∈ s.entries v i, e.1 ≠ []) (off size : ℕ) : ∀ (n b : ℕ) (g : Getdents) (t : Fs),
    b + n = dirBlocks v.m i → g.entryOff = b * v.m.blkSize → t.disk = s.disk →
    (∀ x, t.fault x = none) → ∃ buf ibuf,
      getdentsLoop v.m i off size n b g t =
        (some (some (emit size (dirBlocks v.m i * v.m.blkSize)
            (ahead off (s.direntsFrom v i n b)) g).2.written,
          (emit size (dirBlocks v.m i * v.m.blkSize) (ahead off (s.direntsFrom v i n b)) g).2),
          { t with blkbuf := buf, indbuf := ibuf }) := by
  intro n
  induction n with
  | zero =>
    intro b g t hb hg _ _
    have hg' : { g with entryOff := dirBlocks v.m i * v.m.blkSize } = g := by
      rw [← hb, Nat.add_zero, ← hg]
    refine ⟨t.blkbuf, t.indbuf, ?_⟩
    rw [getdentsLoop, Fs.direntsFrom, List.range'_zero, List.flatMap_nil, ahead, List.filter_nil,
      emit, hg']
    rfl
  | succ n ih =>
    intro b g t hb hg hdisk hh
    have hlt : b < dirBlocks v.m i := by omega
    obtain ⟨hmax, h0⟩ := hd.present b hlt
    have hblk : ∀ q, t.block i q = s.block i q := fun q => by rw [Fs.block, Fs.block, hdisk]
    have hr' : t.InRange v i := fun q hq hq0 => by
      rw [hblk q] at hq0 ⊢
      exact hr q hq hq0
    obtain ⟨ibuf, hrun⟩ := dataBlock_run hh hr' b
    rw [if_pos hmax, hblk] at hrun
    have hread := readBlk_run (v := v) (s := { t with indbuf := ibuf }) hh
      (hr _ (slotOf_valid hmax).1 h0)
    rw [getdentsLoop, bind_of_some hrun, if_neg h0, attempt_bind_run, hread]
    dsimp only
    rw [gets_bind_run]
    -- the walk over this block
    have hbuf : t.disk (s.block i (slotOf v.m b)) = s.dirBlock v i b := by
      rw [hdisk]
      rfl
    obtain ⟨l, hl⟩ := hd.tiled b hlt
    have hwalk := getdentsBlock_eq (b * v.m.blkSize) off size hl.chain
      (hd.recNameLen_ne_zero hnames hlt hl) (Nat.sub_le _ _) (g := g) (by rw [hg, Nat.add_zero])
    have hends : b * v.m.blkSize + v.m.blkSize = (b + 1) * v.m.blkSize := (Nat.succ_mul _ _).symm
    rw [Fs.direntsFrom_succ, ahead_append, emit_append size ((b + 1) * v.m.blkSize), blockDirents,
      hl.offsets_eq]
    simp only [hbuf]
    rw [hends] at hwalk
    rw [hwalk]
    generalize hem : emit size ((b + 1) * v.m.blkSize) _ g = r
    by_cases hfull : r.1 = true
    · rw [if_pos hfull, if_pos hfull]
      exact ⟨_, _, rfl⟩
    · rw [if_neg hfull, if_neg hfull]
      have hoff : r.2.entryOff = (b + 1) * v.m.blkSize := by
        rw [← hem]
        exact entryOff_of_not_full (by rwa [hem])
      exact ih (b + 1) r.2 { t with indbuf := ibuf, blkbuf := s.dirBlock v i b } (by omega) hoff
        hdisk hh

/-! ## Call after call -/

structure Listable (v : Volume) (s : Fs) (n : ℕ) : Prop where
  inv : MetaInv v s
  isIno : v.IsIno n
  dirOk : DirOk v s (s.inode v n)
  inRange : s.InRange v (s.inode v n)
  names : ∀ e ∈ s.entries v (s.inode v n), e.1 ≠ []

/-- The calls on one descriptor, each with its own buffer; the directory stays as it is. -/
def listing (m : Mount) : List (ℕ × Bytes) → FileT → Fs → List (ℤ × Bytes)
  | [], _, _ => []
  | (size, buf) :: calls, f, s =>
    let r := sysGetdents64 m f buf size s
    (r.1, r.2.1) :: listing m calls r.2.2.1 r.2.2.2

/-- **What calls should return** when `es` is still to be listed: each returns the next few records,
one after the other and nothing else, and none only if there are none left. -/
inductive Lists : List Dirent → List (ℕ × Bytes) → List (ℤ × Bytes) → Prop where
  | nil (es : List Dirent) : Lists es [] []
  | cons {taken rest : List Dirent} {size : ℕ} {buf buf' : Bytes} {r : ℤ}
      {calls : List (ℕ × Bytes)} {results : List (ℤ × Bytes)} (hret : r = total taken)
      (hfits : total taken ≤ size) (hlaid : Laid buf' 0 taken)
      (hout : ∀ j, total taken ≤ j → buf' j = buf j) (hend : total taken = 0 → rest = [])
      (hrest : Lists rest calls results) :
      Lists (taken ++ rest) ((size, buf) :: calls) ((r, buf') :: results)

theorem Lists.ret_nonneg {es : List Dirent} {c : ℕ × Bytes} {calls : List (ℕ × Bytes)}
    {r : ℤ × Bytes} {results : List (ℤ × Bytes)} (h : Lists es (c :: calls) (r :: results)) :
    0 ≤ r.1 := by
  cases h with
  | cons hret => exact hret ▸ Int.natCast_nonneg _

structure Ahead (v : Volume) (s : Fs) (n : ℕ) (rest : List Dirent) (f : FileT) : Prop where
  ino : f.ino = n
  fType : f.fType = ifDir
  ahead : ahead f.offset (s.dirents v (s.inode v n)) = rest

section

variable {n : ℕ} {f : FileT} {rest : List Dirent} {t : Fs}

theorem ahead_eq_of_split {off : ℕ} {es taken : List Dirent}
    (hsorted : es.Pairwise fun e e' => e.start < e'.start)
    (hes : ahead off es = taken ++ e :: rest) : ahead e.start es = e :: rest := by
  have hsub : (taken ++ e :: rest).Pairwise fun e e' => e.start < e'.start := by
    rw [← hes]
    exact hsorted.filter _
  obtain ⟨-, hafter, hbefore⟩ := List.pairwise_append.mp hsub
  have hoff : off ≤ e.start := by
    have he : e ∈ ahead off es := by simp [hes]
    exact of_decide_eq_true (List.mem_filter.mp he).2
  -- what is not behind `e` is not behind `off` either
  have htwice : ahead e.start es = ahead e.start (ahead off es) := by
    rw [ahead, ahead, ahead, List.filter_filter]
    refine List.filter_congr fun x _ => ?_
    by_cases hx : e.start ≤ x.start
    · rw [decide_eq_true hx, decide_eq_true (le_trans hoff hx), Bool.and_true]
    · rw [decide_eq_false hx, Bool.false_and]
  have htaken : ahead e.start taken = [] := by
    refine List.filter_eq_nil_iff.mpr fun x hx => ?_
    have := hbefore x hx e List.mem_cons_self
    exact fun h => absurd (of_decide_eq_true h) (by omega)
  have hrest : ahead e.start (e :: rest) = e :: rest := by
    refine List.filter_eq_self.mpr fun x hx => decide_eq_true ?_
    rcases List.mem_cons.mp hx with rfl | hx
    · exact le_rfl
    · exact (List.rel_of_pairwise_cons hafter hx).le
  rw [htwice, hes, ahead_append, htaken, hrest, List.nil_append]

theorem Ahead.fits (hf : Ahead v s n rest f) (hd : DirOk v s (s.inode v n)) (he : e ∈ rest) :
    e.Fits := by
  rw [← hf.ahead] at he
  exact (hd.fits (List.mem_of_mem_filter he)).1

/-- What a call has to do with the records ahead: `taken` goes into the buffer, or would. -/
structure Taken (size : ℕ) (buf : Bytes) (taken rest : List Dirent) (buf' : Bytes) : Prop where
  fits : total taken ≤ size
  laid : Laid buf' 0 taken
  out : ∀ j, total taken ≤ j → buf' j = buf j
  stop : ∀ e ∈ rest.head?, size < total taken + e.reclen

theorem sysGetdents64_spec (h : Listable v s n) (hf : Ahead v s n rest f) (hdisk : t.disk = s.disk)
    (hfault : t.fault = s.fault) {size : ℕ} (hsize : 0 < size) (buf : Bytes) :
    ∃ taken rest' buf' f' t', rest = taken ++ rest' ∧ Taken size buf taken rest' buf' ∧
      t'.disk = s.disk ∧ t'.fault = s.fault ∧ Ahead v s n rest' f' ∧
      sysGetdents64 v.m f buf size t =
        if toInt32 (total taken) < 0 then (-21, buf', f, t')
        else (toInt32 (total taken), buf', f', t') := by
  have hgdesc : ∀ g, t.gdesc v g = s.gdesc v g := fun g => by rw [Fs.gdesc, Fs.gdesc, hdisk]
  have hinode : t.inode v n = s.inode v n := by rw [Fs.inode, Fs.inode, hdisk]
  have hinv : MetaInv v t := h.inv.of_gdesc hfault fun g _ => by
    rw [hgdesc g]
    exact ⟨rfl, rfl, rfl⟩
  have hd := h.dirOk
  -- the walk over the directory
  obtain ⟨bbuf, ibuf, hrun⟩ := getdentsLoop_run hd h.inRange h.names f.offset size
    (dirBlocks v.m (s.inode v n)) 0 ⟨buf, 0, 0⟩ { t with blkbuf := t.disk (v.recBlock n) }
    (Nat.zero_add _) (Nat.zero_mul _).symm hdisk
    (fun x => (congrFun hfault x).trans (h.inv.healthy x))
  have hall : ahead f.offset
      (s.direntsFrom v (s.inode v n) (dirBlocks v.m (s.inode v n)) 0) = rest := hf.ahead
  rw [hall] at hrun
  obtain ⟨taken, rest', hsplit, hem⟩ := emit_spec size
    (dirBlocks v.m (s.inode v n) * v.m.blkSize) (g := ⟨buf, 0, 0⟩) (Nat.zero_le size)
    (fun e he => hf.fits hd he)
  generalize (emit size (dirBlocks v.m (s.inode v n) * v.m.blkSize) rest ⟨buf, 0, 0⟩).2 = g' at *
  have hwritten : g'.written = total taken := hem.written.trans (Nat.zero_add _)
  refine ⟨taken, rest', g'.buf, { f with offset := g'.entryOff },
    { t with blkbuf := bbuf, indbuf := ibuf }, hsplit,
    ⟨?_, hem.laid, fun j hj => ?_, fun e he => ?_⟩, hdisk, hfault, ⟨hf.ino, hf.fType, ?_⟩, ?_⟩
  · rw [← hwritten]
    exact hem.fits
  · exact hem.out j (.inr (by rwa [hwritten]))
  · rw [← hwritten]
    exact (hem.stop e he).2
  · -- the place where the call left off
    dsimp only
    cases rest' with
    | nil =>
      rw [hem.atEnd rfl]
      refine List.filter_eq_nil_iff.mpr fun e he hle => ?_
      have := (hd.fits he).2
      exact absurd (of_decide_eq_true hle) (by omega)
    | cons e rest' =>
      rw [(hem.stop e rfl).1]
      exact ahead_eq_of_split (hd.pairwise_start (by rw [Nat.zero_add])) (hf.ahead.trans hsplit)
  · have hget : getdents v.m f.ino f.offset buf size t =
        (some (some g'.written, g'), { t with blkbuf := bbuf, indbuf := ibuf }) := by
      rw [getdents, if_neg (by rw [v.mounted]; simp; omega), hf.ino,
        bind_of_some (readInode_run hinv h.isIno), hinode, if_neg (not_not.mpr hd.isDir)]
      exact hrun
    rw [sysGetdents64, if_neg (not_not.mpr hf.fType), hget, hwritten]

theorem lists_of_total_lt (h : Listable v s n) {calls : List (ℕ × Bytes)}
    (hcalls : ∀ c ∈ calls, 280 ≤ c.1 ∧ c.1 < 2 ^ 64) (hlt : total rest < 2 ^ 31)
    (hf : Ahead v s n rest f) (hdisk : t.disk = s.disk) (hfault : t.fault = s.fault) :
    Lists rest calls (listing v.m calls f t) := by
  induction calls generalizing rest f t with
  | nil => exact .nil rest
  | cons c calls ih =>
    obtain ⟨size, buf⟩ := c
    have hsize : 280 ≤ size := (hcalls _ List.mem_cons_self).1
    obtain ⟨taken, rest', buf', f', t', rfl, htaken, hdisk', hfault', hf', hcall⟩ :=
      sysGetdents64_spec h hf hdisk hfault (by omega : 0 < size) buf
    rw [total_append] at hlt
    have hint : toInt32 (total taken) = total taken := toInt32_of_lt (by omega)
    have hpos : ¬ toInt32 (total taken) < 0 := by
      rw [hint]
      exact not_lt.mpr (Int.natCast_nonneg _)
    rw [listing, hcall, if_neg hpos, hint]
    refine .cons rfl htaken.fits htaken.laid htaken.out (fun h0 => ?_)
      (ih (fun c hc => hcalls c (List.mem_cons_of_mem _ hc)) (by omega) hf' hdisk' hfault')
    -- any record fits into an empty buffer
    cases rest' with
    | nil => rfl
    | cons e rest' =>
      have hstop := htaken.stop e rfl
      have := (hf'.fits h.dirOk List.mem_cons_self).reclen_le
      omega

theorem not_lists_of_total_ge (h : Listable v s n) (hf : Ahead v s n rest f)
    (hge : 2 ^ 31 ≤ total rest) (buf : Bytes) :
    ¬ Lists rest [(2 ^ 31 + 280, buf)] (listing v.m [(2 ^ 31 + 280, buf)] f s) := by
  obtain ⟨taken, rest', buf', f', t', hsplit, htaken, -, -, hf', hcall⟩ :=
    sysGetdents64_spec h hf rfl rfl (by decide : 0 < 2 ^ 31 + 280) buf
  have hmany : 2 ^ 31 ≤ total taken := by
    cases rest' with
    | nil => rwa [hsplit, List.append_nil] at hge
    | cons e rest' =>
      have hstop := htaken.stop e rfl
      have := (hf'.fits h.dirOk List.mem_cons_self).reclen_le
      omega
  have hfits := htaken.fits
  have hneg : toInt32 (total taken) < 0 := by
    unfold toInt32
    rw [Int.bmod_def]
    split_ifs <;> omega
  rw [if_pos hneg] at hcall
  intro hlists
  have hret : 0 ≤ (sysGetdents64 v.m f buf (2 ^ 31 + 280) s).1 := hlists.ret_nonneg
  rw [hcall] at hret
  exact absurd hret (show ¬ (0 : ℤ) ≤ -21 by decide)

end

/-- Nine groups of 32768 blocks, with all metadata in the first 29 blocks. -/
def largeVolume : Volume where
  m := ⟨true, 4096, 128, 32, 32768, 288, 262784⟩
  groups := 9
  blockBitmap := fun g => 2 + g
  inodeBitmap := fun g => 11 + g
  inodeTable := fun g => 20 + g
  mounted := rfl
  blkSize_cases := .inr (.inr rfl)
  inoSize_eq := rfl
  ipg_pos := by decide
  ipg_le := by decide
  bpg_pos := by decide
  bpg_le := by decide
  blocks_fit := by decide
  inodes_fit := by decide
  blocks_le := by decide
  inodes_le := by decide
  sb_lt := by decide
  gdesc_lt := by decide
  blockBitmap_lt := by decide
  inodeBitmap_lt := by decide
  rec_lt := by
    intro n _ _
    simp only [inoOff, inoIndex, inoGroup] at *
    omega
  gdesc_sb := by decide
  blockBitmap_inj := by omega
  inodeBitmap_inj := by omega
  rec_inj := by
    intro n n' h1 h2 h3 h4
    simp only [inoOff, inoIndex, inoGroup] at *
    omega
  blockBitmap_ne_sb := by decide
  inodeBitmap_ne_sb := by decide
  blockBitmap_ne_gdesc := by decide
  inodeBitmap_ne_gdesc := by decide
  blockBitmap_ne_inodeBitmap := by decide
  rec_ne_sb := by
    intro n _ _
    simp only [inoOff, inoIndex, inoGroup, sbBlock] at *
    omega
  rec_ne_gdesc := by
    intro n _ _ g hg
    simp only [inoOff, inoIndex, inoGroup, gdescBlock, gdtStartBlock] at *
    omega
  rec_ne_blockBitmap := by
    intro n _ _ g _
    simp only [inoOff, inoIndex, inoGroup] at *
    omega
  rec_ne_inodeBitmap := by
    intro n _ _ g _
    simp only [inoOff, inoIndex, inoGroup] at *
    omega

def ofWords (w : ℕ → ℕ) : Bytes := fun j => byteOf (w (j / 4)) (j % 4)

theorem rd32_ofWords {w : ℕ → ℕ} {k : ℕ} (h : w k < 2 ^ 32) : rd32 (ofWords w) (k * 4) = w k := by
  have hbyte : ∀ j < 4, (ofWords w (k * 4 + j)).toNat = w k / 256 ^ j % 256 := by
    intro j hj
    rw [ofWords, show (k * 4 + j) / 4 = k by omega, show (k * 4 + j) % 4 = j by omega, byteOf,
      BitVec.toNat_ofNat]
  have h0 := hbyte 0 (by decide)
  rw [Nat.add_zero] at h0
  rw [rd32, h0, hbyte 1 (by decide), hbyte 2 (by decide), hbyte 3 (by decide)]
  omega

/-- The directory: its blocks are at 287 and up, its tables before them. -/
def largeDir : Inode :=
  { Inode.zero with
    mode := 0x41ED, size := 1074794496, linksCount := 2, blocks := 2101264
    block := fun k => if k.val < 12 then BitVec.ofNat 32 (287 + k.val) else if k = 12 then 29
      else if k = 13 then 30 else 0 }

def largeRecord (b r o : ℕ) : Byte :=
  if o = 0 then 2 else if o = 4 then (if r = 340 then 16 else 12) else if o = 6 then 4
  else if o = 7 then 1
  else if 8 ≤ o ∧ o < 12 then BitVec.ofNat 8 (128 + (b * 341 + r) / 128 ^ (o - 8) % 128) else 0

/-- Block `b` of the directory; the last record takes the last four bytes too. -/
def largeBlock (b : ℕ) : Bytes :=
  fun j => largeRecord b (min (j / 12) 340) (j - 12 * min (j / 12) 340)

def largeDisk (x : ℕ) : Bytes :=
  if x = 0 then
    ofWords fun k => if k % 8 = 0 then 2 + k / 8 else if k % 8 = 1 then 11 + k / 8
      else if k % 8 = 2 then 20 + k / 8 else 0
  else if x = 20 then copyIn zero 128 128 largeDir.encode
  else if x = 29 then ofWords fun k => 299 + k
  else if x = 30 then ofWords fun k => if k < 256 then 31 + k else 0
  else if x < 287 then
    ofWords fun k => if 1036 + (x - 31) * 1024 + k < 262401 then 1323 + (x - 31) * 1024 + k else 0
  else largeBlock (x - 287)

def largeFs : Fs where
  disk := largeDisk
  fault := fun _ => none
  blkbuf := zero
  indbuf := zero
  sFreeBlocksCount := 0
  sFreeInodesCount := 0
  dcache := fun _ => ⟨0, 0, 0, [], false⟩
  dcacheNext := 0
  now := 0

theorem largeFs_metaInv : MetaInv largeVolume largeFs where
  healthy _ := rfl
  blockBitmap := by decide +kernel
  inodeBitmap := by decide +kernel
  inodeTable := by decide +kernel

theorem largeFs_inode : largeFs.inode largeVolume 2 = largeDir :=
  Inode.decode_encode largeDir zero 128

theorem largeFs_single (j : ℕ) (hj : j < 1024) :
    largeFs.block largeDir (.entry (.root 12) j) = 299 + j := by
  have hroot : largeFs.block largeDir (.root 12) = 29 := rfl
  rw [Fs.block_entry_of_ne (by rw [hroot]; decide), hroot]
  exact rd32_ofWords (w := fun k => 299 + k) (by omega)

theorem largeFs_inner (k : ℕ) :
    largeFs.block largeDir (.entry (.root 13) k) = if k < 256 then 31 + k else 0 := by
  have hroot : largeFs.block largeDir (.root 13) = 30 := rfl
  rw [Fs.block_entry_of_ne (by rw [hroot]; decide), hroot]
  exact rd32_ofWords (w := fun k => if k < 256 then 31 + k else 0) (by split_ifs <;> omega)

theorem largeFs_double {k j : ℕ} (hk : k < 256) :
    largeFs.block largeDir (.entry (.entry (.root 13) k) j) =
      if 1036 + k * 1024 + j < 262401 then 1323 + k * 1024 + j else 0 := by
  have hinner : largeFs.block largeDir (.entry (.root 13) k) = 31 + k := by
    rw [largeFs_inner, if_pos hk]
  have hdisk : largeFs.disk (31 + k) =
      ofWords fun j => if 1036 + k * 1024 + j < 262401 then 1323 + k * 1024 + j else 0 := by
    show largeDisk (31 + k) = _
    rw [largeDisk, if_neg (by omega), if_neg (by omega), if_neg (by omega), if_neg (by omega),
      if_pos (by omega), Nat.add_sub_cancel_left]
  rw [Fs.block_entry_of_ne (by rw [hinner]; omega), hinner, hdisk]
  exact rd32_ofWords (by split_ifs <;> omega)

theorem largeFs_block (hb : b < 262401) :
    largeFs.block largeDir (slotOf largeVolume.m b) = 287 + b := by
  have hper : perBlk largeVolume.m = 1024 := rfl
  by_cases h1 : b < 12
  · rw [slotOf_direct h1]
    have hroots : ∀ b < 12, largeDir.roots (Fin.ofNat 14 b) = 287 + b := by decide
    exact hroots b h1
  · by_cases h2 : b - 12 < perBlk largeVolume.m
    · rw [slotOf_single h1 h2, largeFs_single _ (by omega)]
      omega
    · rw [slotOf_double h1 h2, hper, largeFs_double (by omega), if_pos (by omega)]
      omega

theorem largeFs_inRange : largeFs.InRange largeVolume largeDir := by
  intro q hq h0
  show _ < 262784
  rcases valid_cases hq with ⟨r, rfl⟩ | ⟨j, hj, rfl⟩ | ⟨k, -, rfl⟩ | ⟨k, -, j, -, rfl⟩
  · have hroots : ∀ r, largeDir.roots r < 262784 := by decide
    exact hroots r
  · have hj : j < 1024 := hj
    rw [largeFs_single j hj]
    omega
  · rw [largeFs_inner]
    split_ifs <;> omega
  · by_cases hk : k < 256
    · rw [largeFs_double hk]
      split_ifs <;> omega
    · exact absurd (Fs.block_entry_of_eq ((largeFs_inner k).trans (if_neg hk))) h0

theorem largeFs_dirBlock (hb : b < 262401) :
    largeFs.dirBlock largeVolume largeDir b = largeBlock b := by
  rw [Fs.dirBlock, largeFs_block hb]
  show largeDisk (287 + b) = _
  rw [largeDisk, if_neg (by omega), if_neg (by omega), if_neg (by omega), if_neg (by omega),
    if_neg (by omega), Nat.add_sub_cancel_left]

theorem largeBlock_record (b : ℕ) {r : ℕ} (hr : r ≤ 340) :
    recIno (largeBlock b) (12 * r) = 2 ∧
      recLen (largeBlock b) (12 * r) = (if r = 340 then 16 else 12) ∧
      recNameLen (largeBlock b) (12 * r) = 4 := by
  have hbyte : ∀ o < 12, largeBlock b (12 * r + o) = largeRecord b r o := by
    intro o ho
    rw [largeBlock, show min ((12 * r + o) / 12) 340 = r by omega, Nat.add_sub_cancel_left]
  have h0 := hbyte 0 (by decide)
  rw [Nat.add_zero] at h0
  refine ⟨?_, ?_, ?_⟩
  · rw [recIno, rd32, h0, hbyte 1 (by decide), hbyte 2 (by decide), hbyte 3 (by decide)]
    rfl
  · rw [recLen, rd16, hbyte 4 (by decide), Nat.add_assoc, hbyte (4 + 1) (by decide)]
    by_cases hlast : r = 340
    · rw [if_pos hlast, hlast]
      rfl
    · rw [if_neg hlast]
      simp [largeRecord, hlast]
  · rw [recNameLen, hbyte 6 (by decide)]
    rfl

theorem largeBlock_chain (b : ℕ) : ∀ d ≤ 340, Chain 8 (recLen (largeBlock b)) 4096 (12 * (340 - d))
    ((List.range' (340 - d) (d + 1)).map (12 * ·)) := by
  intro d
  induction d with
  | zero =>
    intro _
    have hlen := (largeBlock_record b (r := 340) le_rfl).2.1
    refine .cons (by rw [hlen]; decide) ?_
    rw [hlen]
    exact .nil
  | succ d ih =>
    intro hd
    have hlen := (largeBlock_record b (r := 340 - (d + 1)) (by omega)).2.1
    rw [if_neg (by omega)] at hlen
    rw [List.range'_succ, List.map_cons]
    refine .cons (by rw [hlen]; decide) ?_
    have hstart : 12 * (340 - (d + 1)) + 12 = 12 * (340 - d) := by omega
    have hnext : 340 - (d + 1) + 1 = 340 - d := by omega
    rw [hlen, hstart, hnext]
    exact ih (by omega)

theorem largeBlock_tiled (b : ℕ) :
    Tiled 4096 (largeBlock b) ((List.range' 0 341).map (12 * ·)) := by
  refine ⟨largeBlock_chain b 340 le_rfl, fun o ho _ => ?_⟩
  obtain ⟨r, hr, rfl⟩ := List.mem_map.mp ho
  obtain ⟨-, hlen, hname⟩ := largeBlock_record b (r := r)
    (by have := (List.mem_range'_1.mp hr).2; omega)
  rw [hlen, hname]
  split_ifs <;> omega

theorem largeFs_dirOk : DirOk largeVolume largeFs largeDir where
  isDir := by decide
  size_le := by decide
  present b hb := by
    have hb : b < 262401 := hb
    have hmax : maxBlocks largeVolume.m = 1049612 := by decide
    rw [largeFs_block hb]
    omega
  tiled b hb := ⟨_, largeFs_dirBlock (b := b) hb ▸ largeBlock_tiled b⟩

theorem total_largeBlock (b base : ℕ) :
    total (blockDirents 4096 (largeBlock b) base) = 341 * 24 := by
  rw [blockDirents, (largeBlock_tiled b).offsets_eq, List.filterMap_map]
  have hall : ∀ n r, r + n ≤ 341 →
      total ((List.range' r n).filterMap (direntOf (largeBlock b) base ∘ (12 * ·))) = n * 24 := by
    intro n
    induction n with
    | zero => exact fun r _ => (Nat.zero_mul _).symm
    | succ n ih =>
      intro r hr
      obtain ⟨hino, -, hname⟩ := largeBlock_record b (r := r) (by omega)
      have hsome : (direntOf (largeBlock b) base ∘ (12 * ·)) r = some ⟨base + 12 * r,
          base + (12 * r + recLen (largeBlock b) (12 * r)), recIno (largeBlock b) (12 * r),
          largeBlock b (12 * r + 7), recName (largeBlock b) (12 * r)⟩ :=
        if_neg (by rw [hino]; decide)
      rw [List.range'_succ, List.filterMap_cons_some hsome, total_cons, ih (r + 1) (by omega),
        Dirent.reclen, length_recName, hname]
      omega
  exact hall 341 0 (by decide)

theorem total_largeDir (n b : ℕ) (hb : b + n ≤ 262401) :
    total (largeFs.direntsFrom largeVolume largeDir n b) = n * 8184 := by
  induction n generalizing b with
  | zero => exact (Nat.zero_mul _).symm
  | succ n ih =>
    rw [Fs.direntsFrom_succ, total_append, ih (b + 1) (by omega), largeFs_dirBlock (by omega)]
    have hblk := total_largeBlock b (b * largeVolume.m.blkSize)
    have h4096 : largeVolume.m.blkSize = 4096 := rfl
    rw [h4096] at hblk ⊢
    omega

theorem largeFs_listable : Listable largeVolume largeFs 2 where
  inv := largeFs_metaInv
  isIno := ⟨by decide, by decide⟩
  dirOk := largeFs_inode ▸ largeFs_dirOk
  inRange := largeFs_inode ▸ largeFs_inRange
  names e he := by
    rw [largeFs_inode] at he
    obtain ⟨b, o, l₁, l₂, hrec, hentry⟩ := largeFs_dirOk.mem_entries.mp he
    have hblk := largeFs_dirBlock (b := b) hrec.lt
    have htiled := hrec.tiled
    rw [hblk] at hentry htiled
    -- the offset is that of one of the 341 records
    have ho : o ∈ (List.range' 0 341).map (12 * ·) := by
      rw [← (largeBlock_tiled b).offsets_eq]
      have hoffsets : blockOffsets 4096 (largeBlock b) = l₁ ++ o :: l₂ := htiled.offsets_eq
      rw [hoffsets]
      exact List.mem_append_right _ List.mem_cons_self
    obtain ⟨r, hr, rfl⟩ := List.mem_map.mp ho
    have hname := (largeBlock_record b (r := r)
      (by have := (List.mem_range'_1.mp hr).2; omega)).2.2
    rw [← length_recName, (entryAt_eq_some.mp hentry).2.1] at hname
    exact fun hnil => absurd (hnil ▸ hname) (by decide)

end BananaOS.Ext2
