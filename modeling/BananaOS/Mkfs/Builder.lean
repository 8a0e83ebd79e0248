import BananaOS.Lib.Bytes
import BananaOS.Lib.FailState
import BananaOS.Lib.SlotTable

/-!
# The image builder

`ext2_mkfs.py` writes the disk image that the kernel mounts.  It keeps the image in memory, with a
flag for every block and every inode, places files and directories, and writes all metadata at the
end, in `flush`.
-/

namespace BananaOS.Mkfs

open Function Bytes FailState SlotTable

/-! ## Parameters -/

structure Params where
  totalBlocks : ℕ
  blockSize : ℕ
  inodesPerGroup : ℕ
  blocksPerGroup : ℕ

namespace Params

variable (p : Params)

def itBlocks : ℕ := p.inodesPerGroup * 128 / p.blockSize

def groupCount : ℕ := (p.totalBlocks + p.blocksPerGroup - 1) / p.blocksPerGroup

def totalInodes : ℕ := p.groupCount * p.inodesPerGroup

def gdtStart : ℕ := 2048 / p.blockSize

def bb (g : ℕ) : ℕ := if g = 0 then p.gdtStart + 1 else g * p.blocksPerGroup

def ib (g : ℕ) : ℕ := p.bb g + 1

def it (g : ℕ) : ℕ := p.bb g + 2

def sbBlock : ℕ := 1024 / p.blockSize

def gdtBlocks : ℕ := max 1 ((p.groupCount * 32 + p.blockSize - 1) / p.blockSize)

end Params

/-! ## State -/

structure ByteArr where
  len : ℕ
  byte : Bytes

def ByteArr.setSlice (a : ByteArr) (i j n : ℕ) (data : Bytes) : ByteArr :=
  let i' := min i a.len
  let j' := max i' (min j a.len)
  ⟨i' + n + (a.len - j'), fun k =>
    if k < i' then a.byte k else if k < i' + n then data (k - i') else a.byte (k - (i' + n) + j')⟩

inductive FileType where
  | reg
  | dir
  | sym
  deriving DecidableEq

def FileType.code : FileType → ℕ
  | .reg => 1
  | .dir => 2
  | .sym => 7

abbrev Name := List Byte

structure Entry where
  name : Name
  child : ℕ
  ft : FileType

structure Builder where
  img : ByteArr
  blockBitmap : ℕ → Bool
  inodeBitmap : ℕ → Bool
  inodes : ℕ → Bytes
  nextBlock : ℕ
  nextIno : ℕ
  /-- In the order of insertion. -/
  dirs : List (ℕ × List Entry)
  dirModes : List (ℕ × ℕ)

abbrev MkfsM := FailState Builder

def markRange (total lo hi : ℕ) (bitmap : ℕ → Bool) : Option (ℕ → Bool) :=
  if hi ≤ lo then some bitmap
  else if total < hi then none
  else some fun b => bitmap b || (decide (lo ≤ b) && decide (b < hi))

/-- The loop over the groups in `__init__`. -/
def markGroups (p : Params) : Option (ℕ → Bool) :=
  (List.range p.groupCount).foldlM
    (fun bitmap g => markRange p.totalBlocks (p.bb g) (p.it g + p.itBlocks) bitmap) fun _ => false

def Builder.init (p : Params) : Option Builder := do
  if p.blocksPerGroup = 0 ∨ p.blockSize = 0 then none
  else
    let groups ← markGroups p
    let bitmap ← markRange p.totalBlocks p.sbBlock (p.gdtStart + p.gdtBlocks) groups
    if p.totalBlocks = 0 ∨ p.totalInodes < 12 then none
    else
      some {
        img := ⟨p.totalBlocks * p.blockSize, zero⟩
        blockBitmap := update bitmap 0 true
        inodeBitmap := fun n => decide (n < 12)
        inodes := fun _ => zero
        nextBlock := 0
        nextIno := 12
        dirs := [(2, [])]
        dirModes := [] }

/-! ## Blocks and inodes -/

def findFreeBlock (p : Params) : MkfsM ℕ := do
  match ← gets fun s => firstFree s.blockBitmap s.nextBlock p.totalBlocks with
  | some n => pure n
  | none =>
    match ← gets fun s => firstFree s.blockBitmap 0 p.totalBlocks with
    | some n => pure n
    | none => fail

def allocBlock (p : Params) : MkfsM ℕ := do
  let b ← findFreeBlock p
  modify fun s =>
    { s with blockBitmap := update s.blockBitmap b true, nextBlock := b + 1 }
  pure b

def findFreeInode (p : Params) : MkfsM ℕ := do
  match ← gets fun s => firstFree s.inodeBitmap s.nextIno p.totalInodes with
  | some n => pure n
  | none =>
    match ← gets fun s => firstFree s.inodeBitmap 12 p.totalInodes with
    | some n => pure n
    | none => fail

def allocInode (p : Params) : MkfsM ℕ := do
  let n ← findFreeInode p
  modify fun s => { s with inodeBitmap := update s.inodeBitmap n true, nextIno := n + 1 }
  pure n

/-- `_write_block_at`, with a block of data. -/
def writeBlockAt (p : Params) (blk : ℕ) (data : Bytes) : MkfsM Unit :=
  modify fun s =>
    { s with img := s.img.setSlice (blk * p.blockSize) ((blk + 1) * p.blockSize) p.blockSize data }

/-- Whether `struct.pack_into` takes the number, for a field of `w` bits. -/
def pack (w v : ℕ) : MkfsM Unit := if v < 2 ^ w then pure () else fail

def tableOf (entries : List ℕ) : Bytes := fun j => byteOf (entries.getD (j / 4) 0) (j % 4)

def allocIndirect (p : Params) (entries : List ℕ) : MkfsM ℕ := do
  if p.blockSize < entries.length * 4 ∨ ∃ b ∈ entries, 2 ^ 32 ≤ b then fail
  else
    let blk ← allocBlock p
    writeBlockAt p blk (tableOf entries)
    pure blk

/-- `_alloc_indirect` for each of the groups. -/
def allocIndirects (p : Params) : List (List ℕ) → MkfsM (List ℕ)
  | [] => pure []
  | g :: gs => do
    let b ← allocIndirect p g
    let bs ← allocIndirects p gs
    pure (b :: bs)

def chunks (per : ℕ) (rest : List ℕ) : List (List ℕ) :=
  (List.range ((rest.length + per - 1) / per)).map fun i => (rest.drop (i * per)).take per

/-- The tables behind `i_block[12]` and `i_block[13]`, and how many blocks they take. -/
def allocTables (p : Params) (blocks : List ℕ) : MkfsM (ℕ × ℕ × ℕ) := do
  let per := p.blockSize / 4
  if blocks.length ≤ 12 then pure (0, 0, 0)
  else
    let i1 ← allocIndirect p ((blocks.drop 12).take per)
    pack 32 i1
    if blocks.length ≤ 12 + per then pure (i1, 0, 1)
    else
      let l2 ← allocIndirects p (chunks per (blocks.drop (12 + per)))
      let i2 ← allocIndirect p l2
      pack 32 i2
      pure (i1, i2, l2.length + 2)

/-- The bytes of an inode: `i_mode`, `i_size`, `i_links_count`, `i_blocks` and `i_block`. -/
def inodeBytes (mode size links count : ℕ) (ptr : ℕ → ℕ) : Bytes :=
  (List.range 14).foldl (fun q k => wr32 q (0x28 + k * 4) (ptr k))
    (wr32 (wr16 (wr32 (wr16 zero 0x00 mode) 0x04 size) 0x1A links) 0x1C count)

/-- `i_block[k]`. -/
def iblock (blocks : List ℕ) (i1 i2 k : ℕ) : ℕ :=
  if k < 12 then blocks.getD k 0 else if k = 12 then i1 else i2

/-- `S_IFREG`, `S_IFDIR`, `S_IFLNK`. -/
def sIfReg : ℕ := 0x8000

def sIfDir : ℕ := 0x4000

def sIfLnk : ℕ := 0xA000

def setInode (p : Params) (ino : ℕ) (bytes : Bytes) : MkfsM Unit := do
  if p.totalInodes ≤ ino then fail
  else modify fun s => { s with inodes := update s.inodes ino bytes }

def writeInode (p : Params) (ino mode size : ℕ) (blocks : List ℕ) : MkfsM Unit := do
  pack 16 mode
  pack 32 size
  if ∃ b ∈ blocks.take 12, 2 ^ 32 ≤ b then fail
  else
    let (i1, i2, extra) ← allocTables p blocks
    let count := (blocks.length + extra) * (p.blockSize / 512)
    pack 32 count
    setInode p ino (inodeBytes mode size (if mode &&& sIfDir ≠ 0 then 2 else 1) count
      (iblock blocks i1 i2))

/-! ## Files -/

def sliceBytes (content : List Byte) (i : ℕ) : Bytes := fun k => content.getD (i + k) 0

/-- The loop of `make_file`, for `n` blocks from block `i` of the file on. -/
def makeFileFrom (p : Params) (content : List Byte) : ℕ → ℕ → MkfsM (List ℕ)
  | 0, _ => pure []
  | n + 1, i => do
    let b ← allocBlock p
    let len := min p.blockSize (content.length - i * p.blockSize)
    modify fun s => { s with
      img := s.img.setSlice (b * p.blockSize) (b * p.blockSize + len) len
        (sliceBytes content (i * p.blockSize)) }
    let bs ← makeFileFrom p content n (i + 1)
    pure (b :: bs)

def makeFile (p : Params) (content : List Byte) : MkfsM (List ℕ) :=
  makeFileFrom p content ((content.length + p.blockSize - 1) / p.blockSize) 0

def addEntry (parent : ℕ) (entry : Entry) (dirs : List (ℕ × List Entry)) : List (ℕ × List Entry) :=
  dirs.map fun d => if d.1 = parent then (d.1, d.2 ++ [entry]) else d

def ensureDir (p : Params) (parent : ℕ) (name : Name) : MkfsM ℕ := do
  match ← gets fun s => s.dirs.lookup parent with
  | none => fail
  | some entries =>
    match entries.find? fun e => e.name = name ∧ e.ft = .dir with
    | some e => pure e.child
    | none =>
      let ino ← allocInode p
      modify fun s => { s with dirs := addEntry parent ⟨name, ino, .dir⟩ (s.dirs ++ [(ino, [])]) }
      pure ino

/-- `walk_dir`, from directory `cur` on. -/
def walkDir (p : Params) : ℕ → List Name → MkfsM ℕ
  | cur, [] => pure cur
  | cur, part :: parts => do
    let next ← ensureDir p cur part
    walkDir p next parts

def splitPath (path : List Byte) : List Name := (path.splitOn 47#8).filter fun part => part ≠ []

def createFile (p : Params) (path content : List Byte) : MkfsM ℕ := do
  match (splitPath path).reverse with
  | [] => fail
  | name :: parents =>
    let parent ← walkDir p 2 parents.reverse
    let blocks ← makeFile p content
    let ino ← allocInode p
    writeInode p ino (sIfReg ||| 0o755) content.length blocks
    modify fun s => { s with dirs := addEntry parent ⟨name, ino, .reg⟩ s.dirs }
    pure ino

/-- `create_symlink`; `i_block[12]` and `i_block[13]` stay zero. -/
def createSymlink (p : Params) (path target : List Byte) : MkfsM ℕ := do
  match (splitPath path).reverse with
  | [] => fail
  | name :: parents =>
    let parent ← walkDir p 2 parents.reverse
    let blocks ← makeFile p target
    let ino ← allocInode p
    pack 32 target.length
    pack 32 (blocks.length * (p.blockSize / 512))
    if ∃ b ∈ blocks.take 12, 2 ^ 32 ≤ b then fail
    else
      setInode p ino (inodeBytes (sIfLnk ||| 0o777) target.length 1
        (blocks.length * (p.blockSize / 512)) (iblock blocks 0 0))
      modify fun s => { s with dirs := addEntry parent ⟨name, ino, .sym⟩ s.dirs }
      pure ino

/-! ## Directories -/

/-- The directory that holds the entry of `ino`: the last one that does, the root if there is none.
-/
def parentOf (dirs : List (ℕ × List Entry)) (ino : ℕ) : ℕ :=
  dirs.foldl (fun parent d => if d.2.any fun e => e.child = ino then d.1 else parent) 2

structure DirBlock where
  block : ℕ
  data : Bytes
  pos : ℕ

def DirBlock.term (p : Params) (d : DirBlock) : Bytes :=
  if d.pos < p.blockSize then
    wr8 (wr8 (wr16 (wr32 d.data d.pos 0) (d.pos + 4) (p.blockSize - d.pos)) (d.pos + 6) 0)
      (d.pos + 7) 0
  else d.data

def DirBlock.put (d : DirBlock) (e : Entry) (recLen : ℕ) : DirBlock where
  block := d.block
  data := copyIn (wr8 (wr8 (wr16 (wr32 d.data d.pos e.child) (d.pos + 4) recLen) (d.pos + 6)
    e.name.length) (d.pos + 7) e.ft.code) (d.pos + 8) e.name.length fun k => e.name.getD k 0
  pos := d.pos + recLen

/-- The loop over the entries of one directory, with the blocks that are full. -/
def placeEntries (p : Params) : List Entry → DirBlock → List ℕ → MkfsM (DirBlock × List ℕ)
  | [], d, full => pure (d, full)
  | e :: es, d, full => do
    let recLen := (8 + e.name.length + 3) / 4 * 4
    if p.blockSize - 8 < d.pos + recLen then
      writeBlockAt p d.block (d.term p)
      let block ← allocBlock p
      pack 32 e.child
      pack 8 e.name.length
      placeEntries p es (DirBlock.put ⟨block, zero, 0⟩ e recLen) (full ++ [d.block])
    else
      pack 32 e.child
      pack 8 e.name.length
      placeEntries p es (d.put e recLen) full

/-- One round of `materialize_dirs`. -/
def materializeDir (p : Params) (ino : ℕ) (entries : List Entry) : MkfsM Unit := do
  let parent ← gets fun s => parentOf s.dirs ino
  let block ← allocBlock p
  let (d, full) ← placeEntries p
    (⟨[46#8], ino, .dir⟩ :: ⟨[46#8, 46#8], parent, .dir⟩ :: entries) ⟨block, zero, 0⟩ []
  writeBlockAt p d.block (d.term p)
  let blocks := full ++ [d.block]
  let mode ← gets fun s => (s.dirModes.lookup ino).getD 0o755
  writeInode p ino (sIfDir ||| mode) (blocks.length * p.blockSize) blocks

/-- `materialize_dirs`, for the directories `dirs`. -/
def materializeDirs (p : Params) : List (ℕ × List Entry) → MkfsM Unit
  | [] => pure ()
  | d :: dirs => do
    materializeDir p d.1 d.2
    materializeDirs p dirs

/-! ## Flush -/

def countIn (f : ℕ → Bool) (lo hi : ℕ) : ℕ := (List.range' lo (hi - lo)).countP f

namespace Params

variable (p : Params)

def base (g : ℕ) : ℕ := g * p.blocksPerGroup

def groupEnd (g : ℕ) : ℕ := min (p.base g + p.blocksPerGroup) p.totalBlocks

def isMetaOf (g b : ℕ) : Bool :=
  decide (b = p.bb g ∨ b = p.ib g ∨ (p.it g ≤ b ∧ b < p.it g + p.itBlocks))

def groupInodes (g : ℕ) : List ℕ :=
  List.range' (g * p.inodesPerGroup)
    (min ((g + 1) * p.inodesPerGroup) p.totalInodes - g * p.inodesPerGroup)

/-- `(ino - 1) % INODES_PER_GROUP`, where Python counts down from 0 to the last index. -/
def localIno (ino : ℕ) : ℕ := (ino + p.inodesPerGroup - 1) % p.inodesPerGroup

end Params

/-- `log_block`, for the block sizes that have one. -/
def logBlock (blockSize : ℕ) : Option ℕ :=
  if blockSize = 1024 then some 0 else if blockSize = 2048 then some 1
  else if blockSize = 4096 then some 2 else none

def superBytes (p : Params) (freeBlocks freeInodes log : ℕ) : Bytes :=
  wr16 (wr32 (wr32 (wr16 (wr16 (wr32 (wr32 (wr32 (wr32 (wr32 (wr32 (wr32 (wr32 (wr32 (wr32 zero
    0x00 p.totalInodes) 0x04 p.totalBlocks) 0x0C freeBlocks) 0x10 freeInodes)
    0x14 (if 2048 ≤ p.blockSize then 0 else 1)) 0x18 log) 0x1C log) 0x20 p.blocksPerGroup)
    0x24 p.blocksPerGroup) 0x28 p.inodesPerGroup) 0x38 0xEF53) 0x3A 1) 0x4C 1) 0x54 11) 0x58 128

def packSuper (p : Params) : MkfsM Unit := do
  pack 32 p.totalInodes
  pack 32 p.totalBlocks
  pack 32 p.blocksPerGroup
  pack 32 p.inodesPerGroup

/-- `g_free_b`. -/
def Builder.groupFreeBlocks (s : Builder) (p : Params) (g : ℕ) : ℕ :=
  p.groupEnd g - p.base g -
    countIn (fun b => s.blockBitmap b && p.isMetaOf g b) (p.base g) (p.groupEnd g) -
    countIn (fun b => s.blockBitmap b && !p.isMetaOf g b) (p.base g) (p.groupEnd g)

/-- `g_free_i`. -/
def Builder.groupFreeInodes (s : Builder) (p : Params) (g : ℕ) : ℕ :=
  p.inodesPerGroup - (p.groupInodes g).countP s.inodeBitmap

def Builder.groupDirs (s : Builder) (p : Params) (g : ℕ) : ℕ :=
  (p.groupInodes g).countP fun ino => s.dirs.any fun d => d.1 = ino

def Builder.gdesc (s : Builder) (p : Params) (g : ℕ) : Bytes :=
  wr16 (wr16 (wr16 (wr32 (wr32 (wr32 zero 0x00 (p.bb g)) 0x04 (p.ib g)) 0x08 (p.it g)) 0x0C
    (s.groupFreeBlocks p g)) 0x0E (s.groupFreeInodes p g)) 0x10 (s.groupDirs p g)

def Builder.gdtBytes (s : Builder) (p : Params) : Bytes := fun j =>
  if j / 32 < p.groupCount then s.gdesc p (j / 32) (j % 32) else 0

def packGdesc (p : Params) (g : ℕ) : MkfsM Unit := do
  pack 32 (p.bb g)
  pack 32 (p.ib g)
  pack 32 (p.it g)
  pack 16 (← gets fun s => s.groupFreeBlocks p g)
  pack 16 (← gets fun s => s.groupFreeInodes p g)
  pack 16 (← gets fun s => s.groupDirs p g)

def packGdescs (p : Params) : ℕ → ℕ → MkfsM Unit
  | 0, _ => pure ()
  | n + 1, g => do
    packGdesc p g
    packGdescs p n (g + 1)

def bitmapOf (bits : List ℕ) : Bytes :=
  bits.foldl (fun buf i => update buf (i / 8) (buf (i / 8) ||| 1#8 <<< (i % 8))) zero

def bitmapBytes (p : Params) (bits : List ℕ) : MkfsM Bytes := do
  if ∃ i ∈ bits, p.blockSize ≤ i / 8 then fail
  else pure (bitmapOf bits)

def Builder.blockBits (s : Builder) (p : Params) (g : ℕ) : List ℕ :=
  ((List.range' (p.base g) (p.groupEnd g - p.base g)).filter s.blockBitmap).map (· - p.base g)

def Builder.inodeBits (s : Builder) (p : Params) (g : ℕ) : List ℕ :=
  ((p.groupInodes g).filter s.inodeBitmap).map p.localIno

def writeInodeTable (p : Params) (g : ℕ) : List ℕ → MkfsM Unit
  | [] => pure ()
  | ino :: inos => do
    if ino ≠ 0 then
      let off := p.it g * p.blockSize + p.localIno ino * 128
      modify fun s => { s with img := s.img.setSlice off (off + 128) 128 (s.inodes ino) }
    writeInodeTable p g inos

def writeGroups (p : Params) : ℕ → ℕ → MkfsM Unit
  | 0, _ => pure ()
  | n + 1, g => do
    let bbuf ← bitmapBytes p (← gets fun s => s.blockBits p g)
    writeBlockAt p (p.bb g) bbuf
    let ibuf ← bitmapBytes p (← gets fun s => s.inodeBits p g)
    writeBlockAt p (p.ib g) ibuf
    writeInodeTable p g (p.groupInodes g)
    writeGroups p n (g + 1)

def Builder.usedBlocks (s : Builder) (p : Params) : ℕ := countIn s.blockBitmap 0 p.totalBlocks

def Builder.usedInodes (s : Builder) (p : Params) : ℕ := countIn s.inodeBitmap 0 p.totalInodes

def flush (p : Params) : MkfsM ByteArr := do
  match logBlock p.blockSize with
  | none => fail
  | some log =>
    packSuper p
    modify fun s => { s with
      img := s.img.setSlice 1024 2048 1024
        (superBytes p (p.totalBlocks - s.usedBlocks p) (p.totalInodes - s.usedInodes p) log) }
    packGdescs p p.groupCount 0
    let len := max 1024 (p.groupCount * 32)
    let start := p.gdtStart * p.blockSize
    modify fun s => { s with img := s.img.setSlice start (start + len) len (s.gdtBytes p) }
    writeGroups p p.groupCount 0
    gets Builder.img

/-! ## The program -/

def ascii (s : List Char) : List Byte := s.map fun c => BitVec.ofNat 8 c.toNat

/-- The methods that `build` calls, and the statements that follow a call of `write_inode` in them.
-/
inductive Call where
  | createFile (path content : List Byte)
  | createSymlink (path target : List Byte)
  | walkDir (parts : List Name)
  /-- `fs.dir_modes[fs.walk_dir(parts)] = mode`. -/
  | setMode (parts : List Name) (mode : ℕ)
  /-- `dirs[parent].append(entry)`. -/
  | addEntry (parent : ℕ) (entry : Entry)
  /-- Rounds of `materialize_dirs`. -/
  | materialize (dirs : List (ℕ × List Entry))

def Call.run (p : Params) : Call → MkfsM Unit
  | .createFile path content => do
    let _ ← Mkfs.createFile p path content
  | .createSymlink path target => do
    let _ ← Mkfs.createSymlink p path target
  | .walkDir parts => do
    let _ ← Mkfs.walkDir p 2 parts
  | .setMode parts mode => do
    let ino ← Mkfs.walkDir p 2 parts
    modify fun s => { s with dirModes := (ino, mode) :: s.dirModes }
  | .addEntry parent entry =>
    modify fun s => { s with dirs := Mkfs.addEntry parent entry s.dirs }
  | .materialize dirs => materializeDirs p dirs

def runCalls (p : Params) : List Call → MkfsM Unit
  | [] => pure ()
  | c :: cs => do
    c.run p
    runCalls p cs

/-- The calls of `build`, where `files` are the files that the manifest names. -/
def buildCalls (files : List (List Byte × List Byte)) : List Call :=
  [.createFile (ascii ['/', 'e', 't', 'c', '/', 'h', 'o', 's', 't', 'n', 'a', 'm', 'e'])
      (ascii ['B', 'a', 'n', 'a', 'n', 'a', 'O', 'S', '\n']),
    .createFile (ascii ['/', 'b', 'i', 'n', '/', 'h', 'e', 'l', 'l', 'o'])
      (ascii ['H', 'e', 'l', 'l', 'o', ' ', 'f', 'r', 'o', 'm', ' ', 'E', 'X', 'T', '2', '!',
        '\n']),
    .walkDir [ascii ['t', 'm', 'p']], .walkDir [ascii ['r', 'o', 'o', 't']],
    .walkDir [ascii ['u', 's', 'r']], .walkDir [ascii ['v', 'a', 'r']],
    .walkDir [ascii ['h', 'o', 'm', 'e']],
    .setMode [ascii ['t', 'm', 'p']] 0o1777] ++
  files.map fun f => .createFile f.1 f.2

def populate (p : Params) (files : List (List Byte × List Byte)) : MkfsM Unit := do
  runCalls p (buildCalls files)
  materializeDirs p (← gets Builder.dirs)

def build (p : Params) (files : List (List Byte × List Byte)) : Option ByteArr :=
  (Builder.init p).bind fun s => ((populate p files >>= fun _ => flush p) s).1

end BananaOS.Mkfs
