import BananaOS.Lib.WordBitmap
import BananaOS.Ext2.Disk

/-!
# Bitmaps: allocating and freeing inodes and blocks

`ext2_bitmap_set` to `ext2_free_block`.  A block of the disk read as a bitmap is a `WordBitmap 8`:
bit `b` is bit `b & 7` of byte `b >> 3`.
-/

namespace BananaOS.Ext2

open Bytes FailState

/-- `x++` on a `uint32_t`. -/
def incr32 (x : ℕ) : ℕ := (x + 1) % 2 ^ 32

/-- `x--` on a `uint32_t`. -/
def decr32 (x : ℕ) : ℕ := (x + (2 ^ 32 - 1)) % 2 ^ 32

/-- `ext2_bitmap_set` with `set = 0`. -/
def bitmapClear (m : Mount) (bitmapBlock bit : ℕ) : Ext2M Unit := do
  readBlk m bitmapBlock
  editBlk fun p => WordBitmap.clear p bit
  writeBlk m bitmapBlock

/-- The number of groups that `count` objects at `perGroup` a group take. -/
def groupCount (count perGroup : ℕ) : ℕ := (count + perGroup - 1) % 2 ^ 32 / perGroup

def groupRange (count perGroup g : ℕ) : ℕ := min perGroup (count - g * perGroup)

/-! ## Inodes -/

/-- `ext2_inode_bitmap_alloc`: the first clear bit in `[1, range)`. -/
def inodeBitmapAlloc (m : Mount) (gd : Bytes) (range : ℕ) : Ext2M ℕ := do
  readBlk m (bgInodeBitmap gd)
  match ← gets fun s => WordBitmap.firstClear (w := 8) s.blkbuf (range - 1) 1 with
  | some i =>
    editBlk fun p => WordBitmap.set p i
    writeBlk m (bgInodeBitmap gd)
    pure i
  | none => fail

/-- The group loop of `ext2_alloc_inode`, over `n` groups from `g` on. -/
def allocInodeFrom (m : Mount) : ℕ → ℕ → Ext2M ℕ
  | 0, _ => fail
  | n + 1, g => do
    match ← attempt (readGdesc m g) with
    | none => allocInodeFrom m n (g + 1)
    | some gd =>
      if bgFreeInodesCount gd = 0 then allocInodeFrom m n (g + 1)
      else
        match ← attempt (inodeBitmapAlloc m gd (groupRange m.sInodesCount m.inodesPerGroup g)) with
        | none => allocInodeFrom m n (g + 1)
        | some i =>
          writeGdesc m g (wr16 gd 14 (bgFreeInodesCount gd + (2 ^ 16 - 1)))
          modify fun s => { s with sFreeInodesCount := decr32 s.sFreeInodesCount }
          let _ ← attempt (writeSuperblock m)
          pure (g * m.inodesPerGroup + i)

/-- `ext2_alloc_inode`. -/
def allocInode (m : Mount) : Ext2M ℕ := do
  if m.mounted = false then fail
  else if (← gets Fs.sFreeInodesCount) = 0 then fail
  else allocInodeFrom m (groupCount m.sInodesCount m.inodesPerGroup) 0

/-- `ext2_free_inode`. -/
def freeInode (m : Mount) (ino : ℕ) : Ext2M Unit := do
  if m.mounted = false ∨ ino = 0 then fail
  else
    let gd ← readGdesc m (inoGroup m ino)
    bitmapClear m (bgInodeBitmap gd) (inoIndex m ino)
    writeGdesc m (inoGroup m ino) (wr16 gd 14 (bgFreeInodesCount gd + 1))
    modify fun s => { s with sFreeInodesCount := incr32 s.sFreeInodesCount }
    let _ ← attempt (writeSuperblock m)
    pure ()

/-! ## Blocks -/

/-- `ext2_block_bitmap_alloc`: the first clear bit in `[0, range)`; 0 also stands for failure. -/
def blockBitmapAlloc (m : Mount) (gd : Bytes) (range : ℕ) : Ext2M ℕ := do
  match ← attempt (readBlk m (bgBlockBitmap gd)) with
  | none => pure 0
  | some _ =>
    match ← gets fun s => WordBitmap.firstClear (w := 8) s.blkbuf range 0 with
    | some b =>
      editBlk fun p => WordBitmap.set p b
      match ← attempt (writeBlk m (bgBlockBitmap gd)) with
      | none => pure 0
      | some _ => pure b
    | none => pure 0

/-- The group loop of `ext2_alloc_block`, over `n` groups from `g` on. -/
def allocBlockFrom (m : Mount) : ℕ → ℕ → Ext2M ℕ
  | 0, _ => pure 0
  | n + 1, g => do
    match ← attempt (readGdesc m g) with
    | none => allocBlockFrom m n (g + 1)
    | some gd =>
      if bgFreeBlocksCount gd = 0 then allocBlockFrom m n (g + 1)
      else
        let i ← blockBitmapAlloc m gd (groupRange m.sBlocksCount m.blocksPerGroup g)
        if i = 0 then allocBlockFrom m n (g + 1)
        else
          match ← attempt (writeGdesc m g (wr16 gd 12 (bgFreeBlocksCount gd + (2 ^ 16 - 1)))) with
          | none => pure 0
          | some _ =>
            modify fun s => { s with sFreeBlocksCount := decr32 s.sFreeBlocksCount }
            let _ ← attempt (writeSuperblock m)
            pure (g * m.blocksPerGroup + i)

/-- `ext2_alloc_block`; 0 stands for failure. -/
def allocBlock (m : Mount) : Ext2M ℕ := do
  if m.mounted = false then pure 0
  else if (← gets Fs.sFreeBlocksCount) = 0 then pure 0
  else allocBlockFrom m (groupCount m.sBlocksCount m.blocksPerGroup) 0

/-- `ext2_free_block`. -/
def freeBlock (m : Mount) (blk : ℕ) : Ext2M Unit := do
  if m.mounted = false ∨ blk = 0 then fail
  else
    let gd ← readGdesc m (blk / m.blocksPerGroup)
    bitmapClear m (bgBlockBitmap gd) (blk % m.blocksPerGroup)
    writeGdesc m (blk / m.blocksPerGroup) (wr16 gd 12 (bgFreeBlocksCount gd + 1))
    modify fun s => { s with sFreeBlocksCount := incr32 s.sFreeBlocksCount }
    let _ ← attempt (writeSuperblock m)
    pure ()

end BananaOS.Ext2
