import BananaOS.Lib.WordBitmap

/-!
# The physical page allocator

`mm.c` hands out 4 KiB pages of the hot zone.  A page is known in three places that are updated
separately: its bit in `hot_bitmap`, a possible entry of the 16-slot `hot_free_cache`, and the
counter `hot_zone.used_pages`.  This module is the translation of the four operations that touch
them: `pmalloc` (cache first, then a scan of the bitmap), `pmalloc_contig` (a scan for a free run,
which has to drop the cache entries of the pages it takes), `pfree` and `pfree_contig`.
-/

namespace BananaOS.Mm

open WordBitmap

/-! ## Layout of physical memory -/

def heapBase : ℕ := 0x800000

def pageSize : ℕ := 0x1000

def hotZonePages : ℕ := 262144

def numPageGroups : ℕ := hotZonePages / 64

def warmBase : ℕ := heapBase + 0x40000000

def boomerangBase : ℕ := warmBase + 0x20000000

def hotCacheSlots : ℕ := 16

def hotAddr (p : ℕ) : ℕ := heapBase + p * pageSize

def pageOf (a : ℕ) : ℕ := (a - heapBase) / pageSize

theorem pageOf_hotAddr (p : ℕ) : pageOf (hotAddr p) = p := by
  unfold pageOf hotAddr pageSize
  omega

/-! ## State -/

/-- A slot of the free cache: the group and the bit of a recently freed page. -/
structure HotCacheEntry where
  group : ℕ
  bit : ℕ
  valid : Bool
  deriving DecidableEq

/-- The bitmaps and counters of the three zones, and the free cache of the hot one. -/
structure MmState where
  hotBitmap : WordBitmap 64
  warmBitmap : WordBitmap 64
  boomerangBitmap : WordBitmap 64
  hotUsed : ℕ
  warmUsed : ℕ
  boomerangUsed : ℕ
  hotFreeCache : ℕ → HotCacheEntry

def incr64 (x : ℕ) : ℕ := (x + 1) % 2 ^ 64

def decr64 (x : ℕ) : ℕ := (x + (2 ^ 64 - 1)) % 2 ^ 64

/-- `mm_init`: empty bitmaps, zero counters, no valid cache slot. -/
def mmInit (s : MmState) : MmState where
  hotBitmap := fun _ => 0#64
  warmBitmap := fun _ => 0#64
  boomerangBitmap := fun _ => 0#64
  hotUsed := 0
  warmUsed := 0
  boomerangUsed := 0
  hotFreeCache := fun ci => { s.hotFreeCache ci with valid := false }

/-! ## Allocation -/

def MmState.occupy (s : MmState) (g bit : ℕ) : MmState :=
  { s with hotBitmap := s.hotBitmap.setAt g bit, hotUsed := incr64 s.hotUsed }

def MmState.dropSlot (s : MmState) (ci : ℕ) : MmState :=
  { s with
    hotFreeCache :=
      Function.update s.hotFreeCache ci { s.hotFreeCache ci with valid := false } }

/-- The cache loop of `pmalloc`, over the `n` slots from `ci` on; `q` counts the questions put to
`paddr_linear_ok` so far. -/
def pmallocCached (ans : ℕ → ℕ → Bool) : ℕ → ℕ → ℕ → MmState → Option ℕ × ℕ × MmState
  | 0, _, q, s => (none, q, s)
  | n + 1, ci, q, s =>
    let e := s.hotFreeCache ci
    if e.valid then
      let pa := heapBase + (e.group * 64 + e.bit) * pageSize
      let s' := (s.dropSlot ci).occupy e.group e.bit
      -- a page the kernel cannot reach linearly stays occupied and the loop goes on
      if ans q pa then (some pa, q + 1, s') else pmallocCached ans n (ci + 1) (q + 1) s'
    else pmallocCached ans n (ci + 1) q s

def pmallocScan (ans : ℕ → ℕ → Bool) : ℕ → ℕ → ℕ → MmState → Option ℕ × MmState
  | 0, _, _, s => (none, s)
  | n + 1, g, q, s =>
    if s.hotBitmap g = BitVec.allOnes 64 then pmallocScan ans n (g + 1) q s
    else
      let bit := ctz (~~~(s.hotBitmap g))
      let s' := s.occupy g bit
      let pa := heapBase + (g * 64 + bit) * pageSize
      if ans q pa then (some pa, s') else pmallocScan ans n (g + 1) (q + 1) s'

/-- `pmalloc`: a cached page if one is usable, else the first free page of the bitmap. -/
def pmalloc (ans : ℕ → ℕ → Bool) (s : MmState) : Option ℕ × MmState :=
  match pmallocCached ans hotCacheSlots 0 0 s with
  | (some pa, _, s') => (some pa, s')
  | (none, q, s') => pmallocScan ans numPageGroups 0 q s'

/-- Whether the `n` pages from `idx` on are free and linearly reachable, with the number of
questions asked; the test stops at the first page that is not. -/
def contigFree (ans : ℕ → ℕ → Bool) (s : MmState) : ℕ → ℕ → ℕ → Bool × ℕ
  | 0, _, q => (true, q)
  | n + 1, idx, q =>
    if s.hotBitmap.get idx then (false, q)
    else if ans q (heapBase + idx * pageSize) then contigFree ans s n (idx + 1) (q + 1)
    else (false, q + 1)

def MmState.dropPage (s : MmState) (idx : ℕ) : MmState :=
  { s with
    hotFreeCache := fun ci =>
      let e := s.hotFreeCache ci
      if ci < hotCacheSlots ∧ e.valid = true ∧ e.group = idx / 64 % 2 ^ 16 ∧
          e.bit = idx % 64 % 2 ^ 16 then
        { e with valid := false }
      else e }

/-- Take the `n` pages from `idx` on: set each bit and drop its cache entries. -/
def contigTake : ℕ → ℕ → MmState → MmState
  | 0, _, s => s
  | n + 1, idx, s =>
    contigTake n (idx + 1)
      (({ s with hotBitmap := s.hotBitmap.setAt (idx / 64) (idx % 64) } : MmState).dropPage idx)

/-- The run search of `pmalloc_contig`; `n` bounds the number of bases still to try. -/
def contigScan (ans : ℕ → ℕ → Bool) (pages : ℕ) : ℕ → ℕ → ℕ → MmState → Option ℕ × MmState
  | 0, _, _, s => (none, s)
  | n + 1, base, q, s =>
    if base + pages ≤ hotZonePages then
      match contigFree ans s pages base q with
      | (true, _) =>
        let s' := contigTake pages base s
        (some (heapBase + base * pageSize), { s' with hotUsed := (s'.hotUsed + pages) % 2 ^ 64 })
      | (false, q') => contigScan ans pages n (base + 64) q' s
    else (none, s)

/-- `pmalloc_contig`: `pages` consecutive pages, starting at a group boundary. -/
def pmallocContig (ans : ℕ → ℕ → Bool) (pages : ℕ) (s : MmState) : Option ℕ × MmState :=
  if pages ≤ 1 then pmalloc ans s
  else contigScan ans pages (numPageGroups + 1) 0 0 s

/-! ## Release -/

def firstEmptySlot (cache : ℕ → HotCacheEntry) : ℕ → ℕ → Option ℕ
  | 0, _ => none
  | n + 1, ci => if (cache ci).valid then firstEmptySlot cache n (ci + 1) else some ci

/-- Remember a freed page in the first empty slot; with all slots in use it is not remembered. -/
def MmState.remember (s : MmState) (g bit : ℕ) : MmState :=
  match firstEmptySlot s.hotFreeCache hotCacheSlots 0 with
  | some ci =>
    { s with
      hotFreeCache := Function.update s.hotFreeCache ci ⟨g % 2 ^ 16, bit % 2 ^ 16, true⟩ }
  | none => s

/-- `pfree`: the zone is chosen by address, and only a page that is in use is released. -/
def pfree (addr : ℕ) (s : MmState) : MmState :=
  if boomerangBase ≤ addr then
    let pageIdx := (addr - boomerangBase) / pageSize
    if s.boomerangBitmap.get pageIdx then
      { s with
        boomerangBitmap := s.boomerangBitmap.clear pageIdx
        boomerangUsed := decr64 s.boomerangUsed }
    else s
  else if warmBase ≤ addr then
    let pageIdx := (addr - warmBase) / pageSize
    if s.warmBitmap.get pageIdx then
      { s with warmBitmap := s.warmBitmap.clear pageIdx, warmUsed := decr64 s.warmUsed }
    else s
  else
    -- below the heap the subtraction wraps, as it does on `uint64_t`
    let pageIdx := ((addr + (2 ^ 64 - heapBase)) % 2 ^ 64) / pageSize
    if s.hotBitmap.get pageIdx then
      ({ s with
        hotBitmap := s.hotBitmap.clear pageIdx
        hotUsed := decr64 s.hotUsed } : MmState).remember (pageIdx / 64) (pageIdx % 64)
    else s

/-- `pfree_contig`: free `pages` consecutive pages one by one. -/
def pfreeContig : ℕ → ℕ → MmState → MmState
  | _, 0, s => s
  | addr, n + 1, s => pfreeContig (addr + pageSize) n (pfree addr s)

end BananaOS.Mm
