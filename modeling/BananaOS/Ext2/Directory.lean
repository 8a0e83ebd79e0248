import BananaOS.Ext2.File
import BananaOS.Lib.RecordChain

/-!
# Directories

A block of a directory is a chain of records: inode number, length of the record, length of the
name, type, name.  A record with inode number 0 is free.  Records are found by walking, and the
functions that walk differ in what they look for, in whether they check that a record ends inside
the block (`ext2_read_dir` does not), and in what they do at a block that is not there
(`ext2_read_dir` stops, the others go on).  So there is one walk over a block, `RecordChain.walk`,
and one loop over the blocks, `dirScan`, with these as parameters.
-/

namespace BananaOS.Ext2

open Bytes FailState RecordChain

abbrev Name := List Byte

/-! ## Records -/

def recIno (p : Bytes) (o : ℕ) : ℕ := rd32 p o

def recLen (p : Bytes) (o : ℕ) : ℕ := rd16 p (o + 4)

/-- `name_len`. -/
def recNameLen (p : Bytes) (o : ℕ) : ℕ := (p (o + 6)).toNat

def recName (p : Bytes) (o : ℕ) : Name := slice p (o + 8) (recNameLen p o)

/-- `EXT2_FT_REG`. -/
def ftReg : ℕ := 1

/-- `EXT2_FT_DIR`. -/
def ftDir : ℕ := 2

def dot : Byte := 0x2E

def slash : Byte := 0x2F

def cString (l : List Byte) : Name := l.takeWhile fun c => c ≠ 0

/-! What the walks look for. -/

def isFreeFor (needed : ℕ) (p : Bytes) (o : ℕ) : Bool := recIno p o = 0 ∧ needed ≤ recLen p o

def isNamed (name : Name) (p : Bytes) (o : ℕ) : Bool :=
  recIno p o ≠ 0 ∧ recNameLen p o = name.length % 256 ∧ slice p (o + 8) name.length = name

/-- A record with this name, for `ext2_lookup_cb`. -/
def isCalled (name : Name) (p : Bytes) (o : ℕ) : Bool :=
  recIno p o ≠ 0 ∧ cString (recName p o) = name

/-- A record other than `.` and `..`, for `ext2_rmdir`. -/
def isChild (p : Bytes) (o : ℕ) : Bool :=
  recIno p o ≠ 0 ∧ ¬ ((recNameLen p o = 1 ∧ p (o + 8) = dot) ∨
    (recNameLen p o = 2 ∧ p (o + 8) = dot ∧ p (o + 9) = dot))

/-! ## Blocks -/

/-- The number of blocks of a directory, `(i_size + blk_size - 1) / blk_size`. -/
def dirBlocks (m : Mount) (i : Inode) : ℕ := (i.size.toNat + m.blkSize - 1) % 2 ^ 32 / m.blkSize

/-- The loop over the blocks of a directory, `n` of them from `b` on: the first record that passes
the test, with its block and the record before it.  The block is in `ext2_blkbuf` then. -/
def dirScan (m : Mount) (i : Inode) (strict stopAtHole : Bool) (test : Bytes → ℕ → Bool) :
    ℕ → ℕ → Ext2M (Option (ℕ × ℕ × Option ℕ))
  | 0, _ => pure none
  | n + 1, b => do
    let blk ← dataBlock m i b
    if blk = 0 then
      if stopAtHole then pure none else dirScan m i strict stopAtHole test n (b + 1)
    else
      readBlk m blk
      match ← gets fun s => walk 8 (recLen s.blkbuf) strict m.blkSize (test s.blkbuf) m.blkSize 0
        none with
      | some (o, prev) => pure (some (blk, o, prev))
      | none => dirScan m i strict stopAtHole test n (b + 1)

/-! ## Inserting -/

def nameBytes (name : Name) : Bytes := fun k => name.getD k 0

def putRecord (p : Bytes) (o ino len : ℕ) (name : Name) (ftype : ℕ) : Bytes :=
  copyIn (wr8 (wr8 (wr16 (wr32 p o ino) (o + 4) len) (o + 6) name.length) (o + 7) ftype) (o + 8)
    name.length (nameBytes name)

def putFree (p : Bytes) (o len : ℕ) : Bytes :=
  wr8 (wr8 (wr16 (wr32 p o 0) (o + 4) len) (o + 6) 0) (o + 7) 0

def neededLen (name : Name) : ℕ := (8 + name.length + 3) / 4 * 4

/-- Use the free record at `o`; what remains of it becomes a free record if it is long enough. -/
def useSlot (p : Bytes) (o : ℕ) (name : Name) (ino ftype : ℕ) : Bytes :=
  if 8 ≤ recLen p o - neededLen name then
    putFree (putRecord p o ino (neededLen name) name ftype) (o + neededLen name)
      (recLen p o - neededLen name)
  else putRecord p o ino (recLen p o) name ftype

def firstRecord (m : Mount) (name : Name) (ino ftype : ℕ) : Bytes :=
  putFree (putRecord zero 0 ino (neededLen name) name ftype) (neededLen name)
    (m.blkSize - neededLen name)

def enterInTable (m : Mount) (indir k nblk : ℕ) : Ext2M Unit := do
  match ← attempt (readInd m indir) with
  | none =>
    dropBlock m nblk
    fail
  | some _ =>
    editInd fun p => wr32 p (k * 4) nblk
    match ← attempt (writeInd m indir) with
    | none =>
      dropBlock m nblk
      fail
    | some _ => pure ()

/-- Make the new block `nblk` the block with index `n` of the directory `i`. -/
def enterBlock (m : Mount) (i : Inode) (n nblk : ℕ) : Ext2M Inode := do
  if n < 12 then pure (i.setPtr (Fin.ofNat 15 n) nblk)
  else if n < 12 + perBlk m then
    if i.ptr 12 = 0 then
      let indir ← allocBlock m
      if indir = 0 then
        dropBlock m nblk
        fail
      else
        match ← attempt (newTable m indir) with
        | none =>
          dropBlock m nblk
          dropBlock m indir
          fail
        | some _ =>
          enterInTable m indir (n - 12) nblk
          pure (i.setPtr 12 indir)
    else
      enterInTable m (i.ptr 12) (n - 12) nblk
      pure i
  else
    dropBlock m nblk
    fail

/-- The end of `ext2_dir_insert` when no record is free: a new block at the end of the directory. -/
def appendBlock (m : Mount) (dirIno : ℕ) (i : Inode) (name : Name) (childIno ftype : ℕ) :
    Ext2M Unit := do
  let nblk ← allocBlock m
  if nblk = 0 then fail
  else
    editBlk fun _ => firstRecord m name childIno ftype
    match ← attempt (writeBlk m nblk) with
    | none =>
      dropBlock m nblk
      fail
    | some _ =>
      let i ← enterBlock m i (dirBlocks m i) nblk
      let i := { i with size := i.size + BitVec.ofNat 32 m.blkSize }
      let blocks ← countBlocks m i
      let now ← gets Fs.now
      writeInode m dirIno
        { i with blocks := BitVec.ofNat 32 blocks, mtime := BitVec.ofNat 32 now }

/-- `ext2_dir_insert`. -/
def dirInsert (m : Mount) (dirIno : ℕ) (name : Name) (childIno ftype : ℕ) : Ext2M Unit := do
  if name.length = 0 ∨ 255 < name.length ∨ childIno = 0 then fail
  else
    let i ← readInode m dirIno
    if i.type ≠ ifDir then fail
    else
      match ← dirScan m i true false (isFreeFor (neededLen name)) (dirBlocks m i) 0 with
      | some (blk, o, _) =>
        editBlk fun p => useSlot p o name childIno ftype
        writeBlk m blk
      | none => appendBlock m dirIno i name childIno ftype

/-! ## Finding and removing -/

/-- `ext2_dir_find_t`. -/
structure DirFind where
  childIno : ℕ
  childBlk : ℕ
  curOff : ℕ
  /-- The record before it in the block, if there is one. -/
  prevOff : Option ℕ

/-- `ext2_dir_find`. -/
def dirFind (m : Mount) (parentIno : ℕ) (name : Name) : Ext2M DirFind := do
  let i ← readInode m parentIno
  if i.type ≠ ifDir then fail
  else if name.length = 0 ∨ 255 < name.length then fail
  else
    match ← dirScan m i true false (isNamed name) (dirBlocks m i) 0 with
    | none => fail
    | some (blk, o, prev) =>
      let ino ← gets fun s => recIno s.blkbuf o
      pure ⟨ino, blk, o, prev⟩

/-- Join the record at `cur` to the one before it, or make it free if there is none. -/
def removeRecord (p : Bytes) (cur : ℕ) : Option ℕ → Bytes
  | some prev => wr16 p (prev + 4) (recLen p prev + recLen p cur)
  | none => wr8 (wr8 (wr32 p cur 0) (cur + 6) 0) (cur + 7) 0

/-- `ext2_dir_remove`. -/
def dirRemove (m : Mount) (f : DirFind) : Ext2M Unit := do
  readBlk m f.childBlk
  editBlk fun p => removeRecord p f.curOff f.prevOff
  writeBlk m f.childBlk

/-! ## The cache of directory entries -/

def dcacheSlots : ℕ := 64

def dcacheNameMax : ℕ := 31

def dcacheNameHash (name : Name) : ℕ :=
  name.foldl (fun h c => (h ^^^ c.toNat) * 0x01000193 % 2 ^ 32) 0x811C9DC5

def dcacheFlush : Ext2M Unit := modify fun s =>
  { s with
    dcache := fun k => if k < dcacheSlots then { s.dcache k with valid := false } else s.dcache k }

def dcacheInsert (parent : ℕ) (name : Name) (child : ℕ) : Ext2M Unit := modify fun s =>
  if dcacheNameMax < name.length then s
  else { s with
    dcache := Function.update s.dcache s.dcacheNext ⟨parent, dcacheNameHash name, child, name, true⟩
    dcacheNext := (s.dcacheNext + 1) % dcacheSlots }

def Dentry.Hit (d : Dentry) (parent : ℕ) (name : Name) : Prop :=
  d.valid = true ∧ d.parent = parent ∧ d.hash = dcacheNameHash name ∧ d.name = name

instance (d : Dentry) (parent : ℕ) (name : Name) : Decidable (d.Hit parent name) :=
  inferInstanceAs (Decidable (_ ∧ _))

def dcacheLookup (s : Fs) (parent : ℕ) (name : Name) : Option ℕ :=
  ((List.range dcacheSlots).find? fun k => (s.dcache k).Hit parent name).map fun k =>
    (s.dcache k).child

/-! ## Lookup -/

/-- `ext2_read_dir`, for a callback that stops at the first record that passes the test: its inode.
-/
def readDir (m : Mount) (ino : ℕ) (test : Bytes → ℕ → Bool) : Ext2M (Option ℕ) := do
  if m.mounted = false then fail
  else
    let i ← readInode m ino
    if i.type ≠ ifDir then fail
    else
      match ← dirScan m i false true test (dirBlocks m i) 0 with
      | none => pure none
      | some (_, o, _) =>
        let ino ← gets fun s => recIno s.blkbuf o
        pure (some ino)

/-- `ext2_lookup`. -/
def lookup (m : Mount) (parent : ℕ) (name : Name) : Ext2M ℕ := do
  if m.mounted = false ∨ name = [] then fail
  else
    match ← gets fun s => dcacheLookup s parent name with
    | some child => pure child
    | none =>
      match ← readDir m parent (isCalled name) with
      | none => fail
      | some child =>
        dcacheInsert parent name child
        pure child

/-- `EXT2_ROOT_INO`. -/
def rootIno : ℕ := 2

/-- The names that `ext2_lookup_path` looks up: at most 255 bytes are taken at a time. -/
def pathNames : ℕ → List Byte → List Name
  | 0, _ => []
  | _ + 1, [] => []
  | n + 1, c :: path =>
    let name := ((c :: path).take 255).takeWhile fun x => x ≠ slash
    let rest := (c :: path).drop name.length
    let rest := if rest.head? = some slash then rest.tail else rest
    if name = [] then pathNames n rest else name :: pathNames n rest

/-- `ext2_lookup_path`. -/
def lookupPath (m : Mount) (path : List Byte) : Ext2M ℕ := do
  if m.mounted = false ∨ path.head? ≠ some slash then fail
  else (pathNames path.length path.tail).foldlM (lookup m) rootIno

/-! ## Creating -/

structure Cred where
  uid : BitVec 16
  gid : BitVec 16

def newFile (cred : Cred) (mode now : ℕ) : Inode :=
  { Inode.zero with
    mode := BitVec.ofNat 16 ((mode &&& 0x0FFF) ||| ifReg)
    uid := cred.uid
    gid := cred.gid
    linksCount := 1
    atime := BitVec.ofNat 32 now
    ctime := BitVec.ofNat 32 now
    mtime := BitVec.ofNat 32 now }

/-- `ext2_create_file`. -/
def createFile (m : Mount) (cred : Cred) (parentIno : ℕ) (name : Name) (mode : ℕ) : Ext2M ℕ := do
  if m.mounted = false ∨ name = [] then fail
  else
    dcacheFlush
    let ino ← allocInode m
    let now ← gets Fs.now
    match ← attempt (writeInode m ino (newFile cred mode now)) with
    | none =>
      let _ ← attempt (freeInode m ino)
      fail
    | some _ =>
      match ← attempt (dirInsert m parentIno name ino ftReg) with
      | none =>
        let _ ← attempt (freeInode m ino)
        fail
      | some _ => pure ino

def dotBlock (m : Mount) (ino parentIno : ℕ) : Bytes :=
  putFree (putRecord (putRecord zero 0 ino 12 [dot] ftDir) 12 parentIno 12 [dot, dot] ftDir) 24
    (m.blkSize - 24)

def newDir (m : Mount) (cred : Cred) (now blk : ℕ) : Inode :=
  Inode.setPtr
    { Inode.zero with
      mode := BitVec.ofNat 16 (ifDir ||| 0x01FF)
      uid := cred.uid
      gid := cred.gid
      linksCount := 2
      size := BitVec.ofNat 32 m.blkSize
      blocks := 2
      atime := BitVec.ofNat 32 now
      ctime := BitVec.ofNat 32 now
      mtime := BitVec.ofNat 32 now } 0 blk

def giveBack (m : Mount) (ino blk : ℕ) : Ext2M ℕ := do
  dropBlock m blk
  let _ ← attempt (freeInode m ino)
  fail

/-- `ext2_mkdir`. -/
def mkdir (m : Mount) (cred : Cred) (parentIno : ℕ) (name : Name) : Ext2M ℕ := do
  if m.mounted = false ∨ name = [] then fail
  else
    dcacheFlush
    let ino ← allocInode m
    let blk ← allocBlock m
    if blk = 0 then
      let _ ← attempt (freeInode m ino)
      fail
    else
      editBlk fun _ => dotBlock m ino parentIno
      match ← attempt (writeBlk m blk) with
      | none => giveBack m ino blk
      | some _ =>
        let now ← gets Fs.now
        match ← attempt (writeInode m ino (newDir m cred now blk)) with
        | none => giveBack m ino blk
        | some _ =>
          match ← attempt (dirInsert m parentIno name ino ftDir) with
          | none => giveBack m ino blk
          | some _ => pure ino

/-! ## Deleting and renaming -/

/-- `ext2_unlink`.  Its search and its edit of the block are those of `ext2_dir_find` and
`ext2_dir_remove`. -/
def unlink (m : Mount) (parentIno : ℕ) (name : Name) : Ext2M Unit := do
  if m.mounted = false ∨ name = [] then fail
  else
    dcacheFlush
    let f ← dirFind m parentIno name
    let c ← readInode m f.childIno
    if c.type ≠ ifReg ∧ c.type ≠ ifLnk then fail
    else
      dirRemove m f
      let c := { c with linksCount := c.linksCount - 1 }
      if c.linksCount = 0 then
        let _ ← attempt (truncate m f.childIno)
        let _ ← attempt (freeInode m f.childIno)
      else
        let now ← gets Fs.now
        let _ ← attempt (writeInode m f.childIno { c with ctime := BitVec.ofNat 32 now })

/-- The count of a directory goes down by one, if it can; the rest of the record as `f` says. -/
def dropLink (m : Mount) (ino : ℕ) (f : Inode → Inode) : Ext2M Unit := do
  match ← attempt (readInode m ino) with
  | none => pure ()
  | some d =>
    if d.linksCount = 0 then pure ()
    else
      let _ ← attempt (writeInode m ino (f { d with linksCount := d.linksCount - 1 }))

/-- `ext2_rmdir`: whether the directory was empty, and is gone. -/
def rmdir (m : Mount) (parentIno : ℕ) (name : Name) : Ext2M Bool := do
  if m.mounted = false ∨ name = [] then fail
  else
    dcacheFlush
    let f ← dirFind m parentIno name
    let c ← readInode m f.childIno
    if c.type ≠ ifDir then fail
    else
      match ← dirScan m c true false isChild (dirBlocks m c) 0 with
      | some _ => pure false
      | none =>
        dirRemove m f
        let _ ← attempt (truncate m f.childIno)
        let _ ← attempt (freeInode m f.childIno)
        let now ← gets Fs.now
        dropLink m parentIno fun d => { d with mtime := BitVec.ofNat 32 now }
        pure true

/-- What `ext2_rename` does about an existing target: it is deleted, whatever comes of it. -/
def clearTarget (m : Mount) (newParent : ℕ) (newName : Name) (childIno : ℕ) : Ext2M Unit := do
  match ← attempt (lookup m newParent newName) with
  | none => pure ()
  | some existing =>
    if existing = childIno then pure ()
    else
      match ← attempt (readInode m existing) with
      | none => pure ()
      | some ex =>
        if ex.type = ifDir then
          let _ ← attempt (rmdir m newParent newName)
        else
          let _ ← attempt (unlink m newParent newName)

def moveLink (m : Mount) (oldParent newParent : ℕ) : Ext2M Unit := do
  dropLink m oldParent id
  match ← attempt (readInode m newParent) with
  | none => pure ()
  | some d =>
    let _ ← attempt (writeInode m newParent { d with linksCount := d.linksCount + 1 })

/-- `ext2_rename`. -/
def rename (m : Mount) (oldParent : ℕ) (oldName : Name) (newParent : ℕ) (newName : Name) :
    Ext2M Unit := do
  if m.mounted = false ∨ oldName = [] ∨ newName = [] then fail
  else
    dcacheFlush
    let f ← dirFind m oldParent oldName
    clearTarget m newParent newName f.childIno
    let c ← readInode m f.childIno
    let ftype := if c.type = ifDir then ftDir else ftReg
    dirInsert m newParent newName f.childIno ftype
    dirRemove m f
    if ftype = ftDir ∧ oldParent ≠ newParent then moveLink m oldParent newParent

/-- `ext2_chmod`. -/
def chmod (m : Mount) (ino mode : ℕ) : Ext2M Unit := do
  if m.mounted = false ∨ ino = 0 then fail
  else
    let i ← readInode m ino
    let now ← gets Fs.now
    writeInode m ino
      { i with
        mode := (i.mode &&& 0xF000) ||| BitVec.ofNat 16 (mode &&& 0x0FFF)
        ctime := BitVec.ofNat 32 now }

end BananaOS.Ext2
