import BananaOS.Ext2.Alloc

/-!
# Files: the block map, reading, writing, truncating

`ext2_data_block` to `ext2_truncate`, and `ext2_symlink_target`.
-/

namespace BananaOS.Ext2

open Bytes FailState

def perBlk (m : Mount) : ℕ := m.blkSize / 4

/-- `ext2_data_block`: the block with index `idx` of a file, 0 if there is none. -/
def dataBlock (m : Mount) (i : Inode) (idx : ℕ) : Ext2M ℕ := do
  if idx < 12 then pure (i.ptr (Fin.ofNat 15 idx))
  else if idx - 12 < perBlk m then
    if i.ptr 12 = 0 then pure 0
    else
      match ← attempt (readInd m (i.ptr 12)) with
      | none => pure 0
      | some _ => gets fun s => rd32 s.indbuf ((idx - 12) * 4)
  else
    let idx := idx - 12 - perBlk m
    if i.ptr 13 = 0 then pure 0
    else
      match ← attempt (readInd m (i.ptr 13)) with
      | none => pure 0
      | some _ =>
        if perBlk m ≤ idx / perBlk m then pure 0
        else
          let l1blk ← gets fun s => rd32 s.indbuf (idx / perBlk m * 4)
          if l1blk = 0 then pure 0
          else
            match ← attempt (readInd m l1blk) with
            | none => pure 0
            | some _ => gets fun s => rd32 s.indbuf (idx % perBlk m * 4)

/-! ## Reading -/

def slice (p : Bytes) (o n : ℕ) : List Byte := (List.range n).map fun k => p (o + k)

/-- The copy loop of `ext2_read_file`: what is still to be read from `cur` on, `size` bytes.  Every
round copies at least one byte, so `size` rounds are enough. -/
def readLoop (m : Mount) (i : Inode) : ℕ → ℕ → ℕ → Ext2M (List Byte)
  | 0, _, _ => pure []
  | fuel + 1, cur, size => do
    if size = 0 then pure []
    else
      let blk ← dataBlock m i (cur / m.blkSize)
      if blk = 0 then pure []
      else
        match ← attempt (readBlk m blk) with
        | none => pure []
        | some _ =>
          let chunk := min (m.blkSize - cur % m.blkSize) size
          let bytes ← gets fun s => slice s.blkbuf (cur % m.blkSize) chunk
          let rest ← readLoop m i fuel (cur + chunk) (size - chunk)
          pure (bytes ++ rest)

/-- `ext2_read_file`: the bytes it copies; their number is what it returns. -/
def readFile (m : Mount) (ino offset size : ℕ) : Ext2M (List Byte) := do
  if m.mounted = false then fail
  else
    let i ← readInode m ino
    if i.type ≠ ifReg ∧ i.type ≠ ifLnk then fail
    else if i.size.toNat ≤ offset then pure []
    else
      let size := min size (i.size.toNat - offset)
      readLoop m i size offset size

/-! ## Writing -/

/-- How many of the `n` entries from `k` on in `ext2_indbuf` are nonzero. -/
def countEntries : ℕ → ℕ → Ext2M ℕ
  | 0, _ => pure 0
  | n + 1, k => do
    let d ← gets fun s => rd32 s.indbuf (k * 4)
    let rest ← countEntries n (k + 1)
    pure (if d = 0 then rest else rest + 1)

/-- The outer loop of `ext2_count_blocks` over a table of tables. -/
def countTables (m : Mount) : ℕ → ℕ → Ext2M ℕ
  | 0, _ => pure 0
  | n + 1, k => do
    let l1 ← gets fun s => rd32 s.indbuf (k * 4)
    if l1 = 0 then countTables m n (k + 1)
    else
      let inner ← match ← attempt (readInd m l1) with
        | none => pure 0
        | some _ => countEntries (perBlk m) 0
      let rest ← countTables m n (k + 1)
      pure (1 + inner + rest)

/-- The table behind `i_block[12]` and what is in it. -/
def countSingle (m : Mount) (i : Inode) : Ext2M ℕ := do
  if i.ptr 12 = 0 then pure 0
  else
    match ← attempt (readInd m (i.ptr 12)) with
    | none => pure 1
    | some _ =>
      let inner ← countEntries (perBlk m) 0
      pure (1 + inner)

/-- The table of tables behind `i_block[13]` and what is in it. -/
def countDouble (m : Mount) (i : Inode) : Ext2M ℕ := do
  if i.ptr 13 = 0 then pure 0
  else
    match ← attempt (readInd m (i.ptr 13)) with
    | none => pure 1
    | some _ =>
      let inner ← countTables m (perBlk m) 0
      pure (1 + inner)

/-- `ext2_count_blocks`, in units of 512 bytes. -/
def countBlocks (m : Mount) (i : Inode) : Ext2M ℕ := do
  let direct := ((List.finRange 12).filter fun k => i.ptr (k.castLE (by decide)) ≠ 0).length
  let single ← countSingle m i
  let double ← countDouble m i
  pure ((direct + single + double) * (m.blkSize / 512))

/-- `ext2_alloc_block`, with block 0 turned into a failure as the write path does. -/
def allocOrFail (m : Mount) : Ext2M ℕ := do
  let b ← allocBlock m
  if b = 0 then fail else pure b

/-- Clear `ext2_indbuf` and write it to the new table `blk`. -/
def newTable (m : Mount) (blk : ℕ) : Ext2M Unit := do
  editInd fun _ => zero
  writeInd m blk

/-- The data block at entry `idx` of the table `table`, which is in `ext2_indbuf`; a missing one is
allocated and entered. -/
def tableEntry (m : Mount) (table idx : ℕ) : Ext2M ℕ := do
  let blk ← gets fun s => rd32 s.indbuf (idx * 4)
  if blk = 0 then
    let blk ← allocOrFail m
    editInd fun p => wr32 p (idx * 4) blk
    writeInd m table
    pure blk
  else pure blk

/-- The table behind `i_block[k]`, read to `ext2_indbuf`; a missing one is allocated. -/
def rootTable (m : Mount) (i : Inode) (k : Fin 15) : Ext2M (ℕ × Inode) := do
  if i.ptr k = 0 then
    let b ← allocOrFail m
    newTable m b
    pure (b, i.setPtr k b)
  else
    readInd m (i.ptr k)
    pure (i.ptr k, i)

/-- The table at entry `l1` of the table of tables `indir2`, which is in `ext2_indbuf`; a missing
one is entered first and cleared afterwards. -/
def innerTable (m : Mount) (indir2 l1 : ℕ) : Ext2M ℕ := do
  let l1blk ← gets fun s => rd32 s.indbuf (l1 * 4)
  if l1blk = 0 then
    let l1blk ← allocOrFail m
    editInd fun p => wr32 p (l1 * 4) l1blk
    writeInd m indir2
    newTable m l1blk
    pure l1blk
  else
    readInd m l1blk
    pure l1blk

/-- The block with index `b` of a file that is being written, and the inode with it. -/
def writeBlockFor (m : Mount) (i : Inode) (b : ℕ) : Ext2M (ℕ × Inode) := do
  if b < 12 then
    if i.ptr (Fin.ofNat 15 b) = 0 then
      let blk ← allocOrFail m
      pure (blk, i.setPtr (Fin.ofNat 15 b) blk)
    else pure (i.ptr (Fin.ofNat 15 b), i)
  else if b < 12 + perBlk m then
    let (indir, i) ← rootTable m i 12
    let blk ← tableEntry m indir (b - 12)
    pure (blk, i)
  else
    let idx := b - 12 - perBlk m
    if perBlk m ≤ idx / perBlk m then fail
    else
      let (indir2, i) ← rootTable m i 13
      let l1blk ← innerTable m indir2 (idx / perBlk m)
      let blk ← tableEntry m l1blk (idx % perBlk m)
      pure (blk, i)

/-- `a - b` for two `uint32_t`. -/
def sub32 (a b : ℕ) : ℕ := (a + (2 ^ 32 - b)) % 2 ^ 32

/-- Overwrite the part of block `blk`, the block with index `b`, that lies in the range written. -/
def writeChunk (m : Mount) (data : Bytes) (offset endOff b blk : ℕ) : Ext2M Unit := do
  readBlk m blk
  let first := offset / m.blkSize
  let last := sub32 endOff 1 / m.blkSize
  let chunkStart := if b = first then offset % m.blkSize else 0
  let chunkEnd :=
    if b = last then sub32 endOff 1 % m.blkSize + 1 else m.blkSize
  editBlk fun p => copyIn p chunkStart (sub32 chunkEnd chunkStart)
    (drop data (sub32 (b * m.blkSize + chunkStart) offset))
  writeBlk m blk

/-- The block loop of `ext2_write_file`, over `n` blocks from `b` on. -/
def writeLoop (m : Mount) (data : Bytes) (offset endOff : ℕ) : ℕ → ℕ → Inode → Ext2M Inode
  | 0, _, i => pure i
  | n + 1, b, i => do
    let (blk, i) ← writeBlockFor m i b
    writeChunk m data offset endOff b blk
    writeLoop m data offset endOff n (b + 1) i

/-- The end of `ext2_write_file`: the fields of the record, and the record to the disk. -/
def updateRecord (m : Mount) (ino endOff : ℕ) (i : Inode) : Ext2M Unit := do
  let now ← gets Fs.now
  let i := { i with
    size := if i.size.toNat < endOff then BitVec.ofNat 32 endOff else i.size
    mtime := BitVec.ofNat 32 now
    ctime := BitVec.ofNat 32 now
    dtime := 0 }
  let blocks ← countBlocks m i
  writeInode m ino { i with blocks := BitVec.ofNat 32 blocks }

def lastBlock (m : Mount) (endOff : ℕ) : ℕ := sub32 endOff 1 / m.blkSize

/-- `ext2_write_file`: `size` bytes of `data` at `offset`. -/
def writeFile (m : Mount) (ino offset : ℕ) (data : Bytes) (size : ℕ) : Ext2M ℕ := do
  if m.mounted = false ∨ size = 0 then fail
  else
    let i ← readInode m ino
    if i.type ≠ ifReg ∧ i.type ≠ ifLnk then fail
    else
      let endOff := (offset + size) % 2 ^ 32
      let first := offset / m.blkSize
      let i ← writeLoop m data offset endOff (lastBlock m endOff + 1 - first) first i
      updateRecord m ino endOff i
      pure size

/-! ## Truncating

The functions return the blocks they have handed to `ext2_free_block`, in order.  The driver does
not keep this list; it is there to be talked about. -/

def dropBlock (m : Mount) (b : ℕ) : Ext2M Unit := do
  let _ ← attempt (freeBlock m b)

def truncDirect (m : Mount) : ℕ → ℕ → Inode → Ext2M (List ℕ × Inode)
  | 0, _, i => pure ([], i)
  | n + 1, k, i => do
    if i.ptr (Fin.ofNat 15 k) = 0 then truncDirect m n (k + 1) i
    else
      dropBlock m (i.ptr (Fin.ofNat 15 k))
      let (freed, i') ← truncDirect m n (k + 1) (i.setPtr (Fin.ofNat 15 k) 0)
      pure (i.ptr (Fin.ofNat 15 k) :: freed, i')

/-- Free the blocks in the table in `ext2_indbuf`, `n` entries from `k` on. -/
def truncEntries (m : Mount) : ℕ → ℕ → Ext2M (List ℕ)
  | 0, _ => pure []
  | n + 1, k => do
    let d ← gets fun s => rd32 s.indbuf (k * 4)
    if d = 0 then truncEntries m n (k + 1)
    else
      dropBlock m d
      let freed ← truncEntries m n (k + 1)
      pure (d :: freed)

/-- Read a table to `ext2_indbuf` and free the blocks in it. -/
def truncTable (m : Mount) (table : ℕ) : Ext2M (List ℕ) := do
  match ← attempt (readInd m table) with
  | none => pure []
  | some _ => truncEntries m (perBlk m) 0

/-- Free the tables in the table of tables: the outer loop goes on in `ext2_indbuf`, which by then
holds the inner table. -/
def truncTables (m : Mount) : ℕ → ℕ → Ext2M (List ℕ)
  | 0, _ => pure []
  | n + 1, k => do
    let l1 ← gets fun s => rd32 s.indbuf (k * 4)
    if l1 = 0 then truncTables m n (k + 1)
    else
      let inner ← truncTable m l1
      dropBlock m l1
      let freed ← truncTables m n (k + 1)
      pure (inner ++ l1 :: freed)

/-- Free the blocks behind `i_block[12]`. -/
def truncSingle (m : Mount) (i : Inode) : Ext2M (List ℕ × Inode) := do
  if i.ptr 12 = 0 then pure ([], i)
  else
    let freed ← truncTable m (i.ptr 12)
    dropBlock m (i.ptr 12)
    pure (freed ++ [i.ptr 12], i.setPtr 12 0)

/-- The table of tables, read to `ext2_indbuf`, and all that is in it. -/
def truncOuter (m : Mount) (table : ℕ) : Ext2M (List ℕ) := do
  match ← attempt (readInd m table) with
  | none => pure []
  | some _ => truncTables m (perBlk m) 0

/-- Free the blocks behind `i_block[13]`. -/
def truncDouble (m : Mount) (i : Inode) : Ext2M (List ℕ × Inode) := do
  if i.ptr 13 = 0 then pure ([], i)
  else
    let freed ← truncOuter m (i.ptr 13)
    dropBlock m (i.ptr 13)
    pure (freed ++ [i.ptr 13], i.setPtr 13 0)

def truncBlocks (m : Mount) (i : Inode) : Ext2M (List ℕ × Inode) := do
  let (direct, i) ← truncDirect m 12 0 i
  let (single, i) ← truncSingle m i
  let (double, i) ← truncDouble m i
  pure (direct ++ single ++ double, i)

/-- `ext2_truncate`, with the blocks it has freed. -/
def truncateFreed (m : Mount) (ino : ℕ) : Ext2M (List ℕ) := do
  if m.mounted = false ∨ ino = 0 then fail
  else
    let i ← readInode m ino
    let (freed, i) ← truncBlocks m i
    let now ← gets Fs.now
    writeInode m ino { i with size := 0, blocks := 0, mtime := BitVec.ofNat 32 now }
    pure freed

/-- `ext2_truncate`. -/
def truncate (m : Mount) (ino : ℕ) : Ext2M Unit := do
  let _ ← truncateFreed m ino

/-! ## Symbolic links -/

/-- `ext2_symlink_target`, for a buffer of `max` bytes: the length it returns and the bytes it
stores.  Short targets are in the pointers.  For a long one the length is that of the target, cut
to the buffer, also when `ext2_read_file` stops early at a hole and stores fewer bytes. -/
def symlinkTarget (m : Mount) (ino max : ℕ) : Ext2M (ℕ × List Byte) := do
  if m.mounted = false ∨ max = 0 then fail
  else
    let i ← readInode m ino
    if i.type ≠ ifLnk then fail
    else
      let size := if max ≤ i.size.toNat then max - 1 else i.size.toNat
      if i.size.toNat < 60 then
        pure (size, (List.range size).map fun k => byteOf (i.ptr (Fin.ofNat 15 (k / 4))) (k % 4))
      else
        let bytes ← readFile m ino 0 size
        pure (size, bytes)

end BananaOS.Ext2
