import BananaOS.Lib.Bytes
import BananaOS.Lib.FailState

/-!
# The mounted volume: blocks, descriptors, inodes

The state of the ext2 driver and its lowest layer, `ext2_read_block` to `ext2_write_inode`.
-/

namespace BananaOS.Ext2

open Function Bytes

structure Dentry where
  parent : ℕ
  hash : ℕ
  child : ℕ
  name : List Byte
  valid : Bool

/-- What `ext2_mount` reads from the superblock and never changes. -/
structure Mount where
  mounted : Bool
  blkSize : ℕ
  inoSize : ℕ
  inodesPerGroup : ℕ
  blocksPerGroup : ℕ
  sInodesCount : ℕ
  sBlocksCount : ℕ

structure Fs where
  disk : ℕ → Bytes
  /-- What a failing transfer of a block leaves behind; `none` if transfers succeed. -/
  fault : ℕ → Option Bytes
  blkbuf : Bytes
  indbuf : Bytes
  sFreeBlocksCount : ℕ
  sFreeInodesCount : ℕ
  dcache : ℕ → Dentry
  dcacheNext : ℕ
  /-- `timer_ms() / 1000`. -/
  now : ℕ

abbrev Ext2M := FailState Fs

open FailState

/-! ## Mounting -/

/-- `ext2_mount`, from the 1024 bytes of the superblock, if there is memory for the buffers. -/
def mount (sb : Bytes) : Option Mount :=
  let blkSize := 1024 * 2 ^ rd32 sb 0x18 % 2 ^ 32
  if rd16 sb 0x38 ≠ 0xEF53 then none
  else if 4096 < blkSize then none
  else some {
    mounted := true
    blkSize := blkSize
    inoSize := if rd16 sb 0x58 = 0 then 128 else rd16 sb 0x58
    inodesPerGroup := rd32 sb 0x28
    blocksPerGroup := rd32 sb 0x20
    sInodesCount := rd32 sb 0x00
    sBlocksCount := rd32 sb 0x04 }

/-! ## Blocks -/

/-- The block a block number addresses: `block * sectors_per_block` is a `uint32_t`, of which the
drive looks at 28 bits. -/
def physBlock (m : Mount) (block : ℕ) : ℕ :=
  block * (m.blkSize / 512) % 2 ^ 32 % 2 ^ 28 / (m.blkSize / 512)

/-- `ext2_read_block` into `ext2_blkbuf`. -/
def readBlk (m : Mount) (block : ℕ) : Ext2M Unit := fun s =>
  match s.fault (physBlock m block) with
  | some junk => (none, { s with blkbuf := junk })
  | none => (some (), { s with blkbuf := s.disk (physBlock m block) })

/-- `ext2_read_block` into `ext2_indbuf`. -/
def readInd (m : Mount) (block : ℕ) : Ext2M Unit := fun s =>
  match s.fault (physBlock m block) with
  | some junk => (none, { s with indbuf := junk })
  | none => (some (), { s with indbuf := s.disk (physBlock m block) })

/-- `ext2_write_block`. -/
def writeBlock (m : Mount) (block : ℕ) (data : Bytes) : Ext2M Unit := fun s =>
  if m.mounted = false then (none, s)
  else
    match s.fault (physBlock m block) with
    | some junk => (none, { s with disk := update s.disk (physBlock m block) junk })
    | none => (some (), { s with disk := update s.disk (physBlock m block) data })

/-- `ext2_write_block` from `ext2_blkbuf`. -/
def writeBlk (m : Mount) (block : ℕ) : Ext2M Unit := fun s => writeBlock m block s.blkbuf s

/-- `ext2_write_block` from `ext2_indbuf`. -/
def writeInd (m : Mount) (block : ℕ) : Ext2M Unit := fun s => writeBlock m block s.indbuf s

/-- Change `ext2_blkbuf`. -/
def editBlk (f : Bytes → Bytes) : Ext2M Unit := modify fun s => { s with blkbuf := f s.blkbuf }

/-- Change `ext2_indbuf`. -/
def editInd (f : Bytes → Bytes) : Ext2M Unit := modify fun s => { s with indbuf := f s.indbuf }

/-! ## Group descriptors and superblock -/

/-- `ext2_gdt_start_block`. -/
def gdtStartBlock (m : Mount) : ℕ := 2048 / m.blkSize

def gdescBlock (m : Mount) (group : ℕ) : ℕ := gdtStartBlock m + group / (m.blkSize / 32)

def gdescOff (m : Mount) (group : ℕ) : ℕ := group % (m.blkSize / 32) * 32

/-- `ext2_read_gdesc`: the 32 bytes of the descriptor. -/
def readGdesc (m : Mount) (group : ℕ) : Ext2M Bytes := do
  readBlk m (gdescBlock m group)
  gets fun s => drop s.blkbuf (gdescOff m group)

/-- `ext2_write_gdesc`. -/
def writeGdesc (m : Mount) (group : ℕ) (gd : Bytes) : Ext2M Unit := do
  readBlk m (gdescBlock m group)
  editBlk fun p => copyIn p (gdescOff m group) 32 gd
  writeBlk m (gdescBlock m group)

def bgBlockBitmap (gd : Bytes) : ℕ := rd32 gd 0

def bgInodeBitmap (gd : Bytes) : ℕ := rd32 gd 4

def bgInodeTable (gd : Bytes) : ℕ := rd32 gd 8

def bgFreeBlocksCount (gd : Bytes) : ℕ := rd16 gd 12

def bgFreeInodesCount (gd : Bytes) : ℕ := rd16 gd 14

/-- The block that holds sectors 2 and 3, bytes 1024 to 2047 of the disk. -/
def sbBlock (m : Mount) : ℕ := 1024 / m.blkSize

def sbOff (m : Mount) : ℕ := 1024 % m.blkSize

/-- `ext2_write_superblock`: sectors 2 and 3 are read to the stack, the two counters replaced, and
the sectors written back. -/
def writeSuperblock (m : Mount) : Ext2M Unit := fun s =>
  match s.fault (sbBlock m) with
  | some _ => (none, s)
  | none =>
    (some (), { s with
      disk := update s.disk (sbBlock m)
        (wr32 (wr32 (s.disk (sbBlock m)) (sbOff m + 0x0C) s.sFreeBlocksCount)
          (sbOff m + 0x10) s.sFreeInodesCount) })

/-! ## Inodes -/

instance neZero_fifteen : NeZero 15 := ⟨by decide⟩

/-- `ext2_inode_t`, 128 bytes. -/
structure Inode where
  mode : BitVec 16
  uid : BitVec 16
  size : BitVec 32
  atime : BitVec 32
  ctime : BitVec 32
  mtime : BitVec 32
  dtime : BitVec 32
  gid : BitVec 16
  linksCount : BitVec 16
  blocks : BitVec 32
  flags : BitVec 32
  osd1 : BitVec 32
  block : Fin 15 → BitVec 32
  generation : BitVec 32
  fileAcl : BitVec 32
  dirAcl : BitVec 32
  faddr : BitVec 32
  osd2 : Fin 12 → Byte

/-- `ext2_memset(&inode, 0, sizeof(inode))`. -/
def Inode.zero : Inode where
  mode := 0
  uid := 0
  size := 0
  atime := 0
  ctime := 0
  mtime := 0
  dtime := 0
  gid := 0
  linksCount := 0
  blocks := 0
  flags := 0
  osd1 := 0
  block := fun _ => 0
  generation := 0
  fileAcl := 0
  dirAcl := 0
  faddr := 0
  osd2 := fun _ => 0

def Inode.decode (p : Bytes) (o : ℕ) : Inode where
  mode := BitVec.ofNat 16 (rd16 p o)
  uid := BitVec.ofNat 16 (rd16 p (o + 2))
  size := BitVec.ofNat 32 (rd32 p (o + 4))
  atime := BitVec.ofNat 32 (rd32 p (o + 8))
  ctime := BitVec.ofNat 32 (rd32 p (o + 12))
  mtime := BitVec.ofNat 32 (rd32 p (o + 16))
  dtime := BitVec.ofNat 32 (rd32 p (o + 20))
  gid := BitVec.ofNat 16 (rd16 p (o + 24))
  linksCount := BitVec.ofNat 16 (rd16 p (o + 26))
  blocks := BitVec.ofNat 32 (rd32 p (o + 28))
  flags := BitVec.ofNat 32 (rd32 p (o + 32))
  osd1 := BitVec.ofNat 32 (rd32 p (o + 36))
  block := fun k => BitVec.ofNat 32 (rd32 p (o + 40 + 4 * k))
  generation := BitVec.ofNat 32 (rd32 p (o + 100))
  fileAcl := BitVec.ofNat 32 (rd32 p (o + 104))
  dirAcl := BitVec.ofNat 32 (rd32 p (o + 108))
  faddr := BitVec.ofNat 32 (rd32 p (o + 112))
  osd2 := fun k => p (o + 116 + k)

def Inode.encode (i : Inode) : Bytes := fun j =>
  if j < 2 then byteOf i.mode.toNat j
  else if j < 4 then byteOf i.uid.toNat (j - 2)
  else if j < 8 then byteOf i.size.toNat (j - 4)
  else if j < 12 then byteOf i.atime.toNat (j - 8)
  else if j < 16 then byteOf i.ctime.toNat (j - 12)
  else if j < 20 then byteOf i.mtime.toNat (j - 16)
  else if j < 24 then byteOf i.dtime.toNat (j - 20)
  else if j < 26 then byteOf i.gid.toNat (j - 24)
  else if j < 28 then byteOf i.linksCount.toNat (j - 26)
  else if j < 32 then byteOf i.blocks.toNat (j - 28)
  else if j < 36 then byteOf i.flags.toNat (j - 32)
  else if j < 40 then byteOf i.osd1.toNat (j - 36)
  else if j < 100 then byteOf (i.block (Fin.ofNat 15 ((j - 40) / 4))).toNat ((j - 40) % 4)
  else if j < 104 then byteOf i.generation.toNat (j - 100)
  else if j < 108 then byteOf i.fileAcl.toNat (j - 104)
  else if j < 112 then byteOf i.dirAcl.toNat (j - 108)
  else if j < 116 then byteOf i.faddr.toNat (j - 112)
  else i.osd2 (Fin.ofNat 12 (j - 116))

/-- `i_mode & EXT2_S_IFMT`, by the bits above the permissions. -/
def Inode.type (i : Inode) : ℕ := i.mode.toNat &&& 0xF000

/-- `EXT2_S_IFREG`. -/
def ifReg : ℕ := 0x8000

/-- `EXT2_S_IFDIR`. -/
def ifDir : ℕ := 0x4000

/-- `EXT2_S_IFLNK`. -/
def ifLnk : ℕ := 0xA000

/-- `i_block[k]`. -/
def Inode.ptr (i : Inode) (k : Fin 15) : ℕ := (i.block k).toNat

/-- `i_block[k] = b`. -/
def Inode.setPtr (i : Inode) (k : Fin 15) (b : ℕ) : Inode :=
  { i with block := update i.block k (BitVec.ofNat 32 b) }

def inoGroup (m : Mount) (ino : ℕ) : ℕ := (ino - 1) / m.inodesPerGroup

def inoIndex (m : Mount) (ino : ℕ) : ℕ := (ino - 1) % m.inodesPerGroup

/-- The byte offset `table_block * blk_size + index * ino_size`, a `uint32_t`. -/
def inoOff (m : Mount) (table ino : ℕ) : ℕ :=
  (table * m.blkSize + inoIndex m ino * m.inoSize) % 2 ^ 32

/-- `ext2_read_inode`. -/
def readInode (m : Mount) (ino : ℕ) : Ext2M Inode := do
  if m.mounted = false ∨ ino = 0 then fail
  else
    let gd ← readGdesc m (inoGroup m ino)
    let off := inoOff m (bgInodeTable gd) ino
    readBlk m (off / m.blkSize)
    gets fun s => Inode.decode s.blkbuf (off % m.blkSize)

/-- `ext2_write_inode`. -/
def writeInode (m : Mount) (ino : ℕ) (i : Inode) : Ext2M Unit := do
  if m.mounted = false ∨ ino = 0 then fail
  else
    let gd ← readGdesc m (inoGroup m ino)
    let off := inoOff m (bgInodeTable gd) ino
    readBlk m (off / m.blkSize)
    editBlk fun p => copyIn p (off % m.blkSize) m.inoSize i.encode
    writeBlk m (off / m.blkSize)

end BananaOS.Ext2
