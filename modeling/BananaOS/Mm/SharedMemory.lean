import BananaOS.Mm.AllocationOrder

/-!
# Shared memory segments

`shm.c` keeps a table of eight segments.  A segment is recorded by the address of its first page and
its length: `sys_shmget` calls `pmalloc` once for each page, keeps the first result and forgets the
others, and everything that is done with the segment afterwards, zeroing, mapping and freeing, walks
from the first page upwards.  The comment in the source names the assumption: the pages are
contiguous.
-/

namespace BananaOS.Mm

open Function

/-! ## The model -/

def shmMaxSegs : ℕ := 8

def shmAttachBase : ℕ := 0x6000000000

def shmRdonly : ℕ := 0x1000

/-- `shm_seg_t`. -/
structure ShmSeg where
  key : ℕ
  size : ℕ
  phys : ℕ
  ref : ℕ
  used : Bool
  deriving DecidableEq

structure ShmSys where
  segs : ℕ → ShmSeg
  mm : MmState
  mem : ℕ → BitVec 8

def shmPages (size : ℕ) : ℕ := (size + (pageSize - 1)) % 2 ^ 64 / pageSize

/-- The allocation loop of `sys_shmget`: the addresses that `pmalloc` has returned, whether all `n`
have been obtained, and the allocator.  `ans k` answers the questions of the `k`-th call. -/
def shmAlloc (ans : ℕ → ℕ → ℕ → Bool) : ℕ → ℕ → MmState → List ℕ × Bool × MmState
  | 0, _, s => ([], true, s)
  | n + 1, k, s =>
    match pmalloc (ans k) s with
    | (none, s') => ([], false, s')
    | (some a, s') =>
      let r := shmAlloc ans n (k + 1) s'
      (a :: r.1, r.2)

def shmZero (mem : ℕ → BitVec 8) (p n : ℕ) : ℕ → BitVec 8 :=
  fun a => if p ≤ a ∧ a < p + n then 0 else mem a

def shmZeroPages (first : ℕ) : ℕ → (ℕ → BitVec 8) → ℕ → BitVec 8
  | 0, mem => mem
  | n + 1, mem => shmZero (shmZeroPages first n mem) (first + n * pageSize) pageSize

def shmFind (s : ShmSys) (test : ShmSeg → Bool) : Option ℕ :=
  (List.range shmMaxSegs).find? fun i => test (s.segs i)

/-- The part of `sys_shmget` that creates a segment in a slot; the rollback and the release of a
segment walk as `pfree_contig` does. -/
def shmCreate (ans : ℕ → ℕ → ℕ → Bool) (key size slot : ℕ) (s : ShmSys) : ℤ × ShmSys :=
  let r := shmAlloc ans (shmPages size) 0 s.mm
  let first := r.1.headD 0
  if r.2.1 then
    (slot, {
      segs := update s.segs slot ⟨key, shmPages size * pageSize % 2 ^ 64, first, 0, true⟩
      mm := r.2.2
      mem := shmZeroPages first (shmPages size) s.mem })
  else (-1, { s with mm := pfreeContig first r.1.length r.2.2 })

def sysShmget (ans : ℕ → ℕ → ℕ → Bool) (key size : ℕ) (s : ShmSys) : ℤ × ShmSys :=
  if size = 0 then (-1, s)
  else
    match (if key ≠ 0 then shmFind s fun x => x.used && decide (x.key = key) else none) with
    | some i => (i, s)
    | none =>
      match shmFind s fun x => !x.used with
      | none => (-1, s)
      | some slot => shmCreate ans key size slot s

/-- The mappings that `sys_shmat` makes, up to the first that fails. -/
def shmatMaps (ok : ℕ → Bool) (vaddr phys : ℕ) : ℕ → ℕ → List (ℕ × ℕ)
  | 0, _ => []
  | n + 1, i =>
    if ok i then
      ((vaddr + i * pageSize) % 2 ^ 64, (phys + i * pageSize) % 2 ^ 64) ::
        shmatMaps ok vaddr phys n (i + 1)
    else []

/-- `sys_shmat`, with the pages it maps in the current address space and whether they are writable;
`ok i` is whether `vm_map_page` succeeds for page `i`. -/
def sysShmat (ok : ℕ → Bool) (id addr flags : ℕ) (s : ShmSys) : ℤ × List (ℕ × ℕ) × Bool × ShmSys :=
  if shmMaxSegs ≤ id then (-1, [], false, s)
  else
    let x := s.segs id
    if x.used = false then (-1, [], false, s)
    else
      let vaddr := if addr = 0 then shmAttachBase + id * pageSize else addr / pageSize * pageSize
      let maps := shmatMaps ok vaddr x.phys (x.size / pageSize) 0
      let writable := decide (flags &&& shmRdonly = 0)
      if maps.length = x.size / pageSize then
        (vaddr, maps, writable,
          { s with segs := update s.segs id { x with ref := (x.ref + 1) % 2 ^ 64 } })
      else (-1, maps, writable, s)

/-- `sys_shmctl`; command 0 is `IPC_RMID`. -/
def sysShmctl (id cmd : ℕ) (s : ShmSys) : ℤ × ShmSys :=
  if shmMaxSegs ≤ id then (-1, s)
  else if (s.segs id).used = false then (-1, s)
  else if cmd = 0 then
    (0, { s with
      mm := pfreeContig (s.segs id).phys ((s.segs id).size / pageSize) s.mm
      segs := update s.segs id ⟨0, 0, 0, 0, false⟩ })
  else (-1, s)

/-! ## What a segment may touch -/

def Within (got : List ℕ) (a : ℕ) : Prop := ∃ b ∈ got, b ≤ a ∧ a < b + pageSize

/-- **The segment in a slot owns its pages**: `got` is what `pmalloc` has returned in the call. -/
structure OwnsPages (got : List ℕ) (s s' : ShmSys) (slot : ℕ) : Prop where
  fresh : ∀ b ∈ got, ∃ p < hotZonePages, b = hotAddr p ∧ s.mm.hotBit p = false
  within : ∀ a, (s'.segs slot).phys ≤ a → a < (s'.segs slot).phys + (s'.segs slot).size → Within got a
  zeroed : ∀ a, ¬ Within got a → s'.mem a = s.mem a
  mapped : ∀ ok addr flags, ∀ m ∈ (sysShmat ok slot addr flags s').2.1, m.2 ∈ got
  /-- Whenever the segment is removed. -/
  freed : ∀ t : ShmSys, t.segs slot = s'.segs slot →
    (∀ p, hotAddr p ∉ got → (sysShmctl slot 0 t).2.mm.hotBit p = t.mm.hotBit p) ∧
      (sysShmctl slot 0 t).2.mm.warmBitmap = t.mm.warmBitmap ∧
      (sysShmctl slot 0 t).2.mm.boomerangBitmap = t.mm.boomerangBitmap

structure SamePages (m m' : MmState) : Prop where
  hot : ∀ p, m'.hotBit p = m.hotBit p
  warm : m'.warmBitmap = m.warmBitmap
  boomerang : m'.boomerangBitmap = m.boomerangBitmap

/-- **`sys_shmget` is safe**: a segment that it creates owns its pages, and if it fails the same
pages are allocated as before. -/
structure ShmgetSafe (ans : ℕ → ℕ → ℕ → Bool) (key size : ℕ) (s : ShmSys) : Prop where
  created : ∀ slot : ℕ, (sysShmget ans key size s).1 = slot → (s.segs slot).used = false →
    OwnsPages (shmAlloc ans (shmPages size) 0 s.mm).1 s (sysShmget ans key size s).2 slot
  failed : (sysShmget ans key size s).1 = -1 → SamePages s.mm (sysShmget ans key size s).2.mm

def Creates (key size : ℕ) (s : ShmSys) : Prop :=
  size ≠ 0 ∧ (key ≠ 0 → ∀ i < shmMaxSegs, (s.segs i).used = true → (s.segs i).key ≠ key) ∧
    ∃ i < shmMaxSegs, (s.segs i).used = false

def Interval (l : List ℕ) : Prop := ∀ h ∈ l.head?, ∀ p ∈ l, h ≤ p ∧ p < h + l.length

section

variable {s : ShmSys} {m m' : MmState} {key size slot h p : ℕ} {l : List ℕ}

theorem Interval.mem_iff (hi : Interval l) (hnd : l.Nodup) (hh : h ∈ l.head?) :
    p ∈ l ↔ h ≤ p ∧ p < h + l.length := by
  have hsub : l.toFinset ⊆ Finset.Ico h (h + l.length) := by
    intro q hq
    exact Finset.mem_Ico.mpr (hi h hh q (List.mem_toFinset.mp hq))
  have hcard : (Finset.Ico h (h + l.length)).card ≤ l.toFinset.card := by
    rw [Nat.card_Ico, Nat.add_sub_cancel_left, List.toFinset_card_of_nodup hnd]
  rw [← List.mem_toFinset, Finset.eq_of_subset_of_card_le hsub hcard, Finset.mem_Ico]

theorem interval_of_covered (hnd : l.Nodup)
    (hcov : ∀ h ∈ l.head?, ∀ p, h ≤ p → p < h + l.length → p ∈ l) : Interval l := by
  intro h hh p hp
  have hsub : Finset.Ico h (h + l.length) ⊆ l.toFinset := by
    intro q hq
    obtain ⟨h1, h2⟩ := Finset.mem_Ico.mp hq
    exact List.mem_toFinset.mpr (hcov h hh q h1 h2)
  have hcard : l.toFinset.card ≤ (Finset.Ico h (h + l.length)).card := by
    rw [Nat.card_Ico, Nat.add_sub_cancel_left, List.toFinset_card_of_nodup hnd]
  have heq := Finset.eq_of_subset_of_card_le hsub hcard
  rw [← List.mem_toFinset, ← heq, Finset.mem_Ico] at hp
  exact hp

/-! ## Allocating -/

theorem shmAlloc_of_some {ans : ℕ → ℕ → ℕ → Bool} {n k a : ℕ}
    (hrun : pmalloc (ans k) m = (some a, m')) : shmAlloc ans (n + 1) k m =
      (a :: (shmAlloc ans n (k + 1) m').1, (shmAlloc ans n (k + 1) m').2) := by
  rw [shmAlloc, hrun]

theorem shmAlloc_of_none {ans : ℕ → ℕ → ℕ → Bool} {n k : ℕ}
    (hrun : pmalloc (ans k) m = (none, m')) : shmAlloc ans (n + 1) k m = ([], false, m') := by
  rw [shmAlloc, hrun]

theorem shmAlloc_order : ∀ (n k : ℕ) {m : MmState}, HotInv m →
    ∃ m', shmAlloc (fun _ => accepts) n k m =
        ((m.freeOrder.take n).map hotAddr, decide (n ≤ m.freeOrder.length), m') ∧
      HotInv m' ∧ (∀ q, m'.hotBit q = (decide (q ∈ m.freeOrder.take n) || m.hotBit q)) ∧
      m'.warmBitmap = m.warmBitmap ∧ m'.boomerangBitmap = m.boomerangBitmap := by
  intro n
  induction n with
  | zero =>
    intro k m hinv
    refine ⟨m, ?_, hinv, fun q => ?_, rfl, rfl⟩
    · rw [List.take_zero, decide_eq_true (Nat.zero_le _)]
      rfl
    · rw [List.take_zero, decide_eq_false List.not_mem_nil, Bool.false_or]
  | succ n ih =>
    intro k m hinv
    rcases pmalloc_order hinv with ⟨p, m₁, hrun, hinv₁, hpop⟩ | ⟨hrun, hnil⟩
    · obtain ⟨m', hrest, hinv', hbit, hwarm, hboom⟩ := ih (k + 1) hinv₁
      refine ⟨m', ?_, hinv', fun q => ?_, hwarm.trans hpop.warm, hboom.trans hpop.boomerang⟩
      · have hdec : decide (n + 1 ≤ m.freeOrder.length) = decide (n ≤ m₁.freeOrder.length) := by
          rw [hpop.order, List.length_cons]
          exact decide_eq_decide.mpr Nat.succ_le_succ_iff
        rw [shmAlloc_of_some hrun, hdec, hpop.order, List.take_succ_cons, List.map_cons, hrest]
      · rw [hbit, hpop.hotBit, hpop.order, List.take_succ_cons]
        by_cases hq : q = p <;> simp [hq]
    · refine ⟨m, ?_, hinv, fun q => ?_, rfl, rfl⟩
      · rw [shmAlloc_of_none hrun, hnil, List.take_nil, List.map_nil, List.length_nil,
          decide_eq_false (Nat.not_succ_le_zero n)]
      · rw [hnil, List.take_nil, decide_eq_false List.not_mem_nil, Bool.false_or]

/-! ## Freeing -/

theorem hotBit_pfree_of_ne (hp : p ≠ h) : (pfree (hotAddr h) m).hotBit p = m.hotBit p := by
  by_cases hh : h < hotZonePages
  · rw [pfree_hotAddr hh]
    split_ifs
    · rw [hotBit_remember]
      exact (WordBitmap.get_clear (by decide) m.hotBitmap h p).trans (by simp [hp, MmState.hotBit])
    · rfl
  · have hwarm : warmBase ≤ hotAddr h := by
      unfold hotZonePages at hh
      unfold warmBase hotAddr pageSize
      omega
    rw [pfree]
    by_cases hb : boomerangBase ≤ hotAddr h
    · rw [if_pos hb]
      dsimp only
      split_ifs <;> rfl
    · rw [if_neg hb, if_pos hwarm]
      dsimp only
      split_ifs <;> rfl

theorem hotAddr_add (h k : ℕ) : hotAddr h + k * pageSize = hotAddr (h + k) := by
  rw [hotAddr, hotAddr, Nat.add_mul, Nat.add_assoc]

theorem hotBit_pfreeContig_of_not_mem : ∀ {n h : ℕ} {m : MmState}, ¬ (h ≤ p ∧ p < h + n) →
    (pfreeContig (hotAddr h) n m).hotBit p = m.hotBit p := by
  intro n
  induction n with
  | zero => exact fun _ => rfl
  | succ n ih =>
    intro h m hp
    rw [pfreeContig, show hotAddr h + pageSize = hotAddr (h + 1) by
      rw [← hotAddr_add, Nat.one_mul], ih (by omega), hotBit_pfree_of_ne (by omega)]

theorem pfreeContig_zones : ∀ {n h : ℕ} {m : MmState}, h + n ≤ hotZonePages →
    (pfreeContig (hotAddr h) n m).warmBitmap = m.warmBitmap ∧
      (pfreeContig (hotAddr h) n m).boomerangBitmap = m.boomerangBitmap := by
  intro n
  induction n with
  | zero => exact fun _ => ⟨rfl, rfl⟩
  | succ n ih =>
    intro h m hle
    rw [pfreeContig, show hotAddr h + pageSize = hotAddr (h + 1) by
      rw [← hotAddr_add, Nat.one_mul]]
    obtain ⟨hw, hb⟩ := ih (h := h + 1) (m := pfree (hotAddr h) m) (by omega)
    have hone : (pfree (hotAddr h) m).warmBitmap = m.warmBitmap ∧
        (pfree (hotAddr h) m).boomerangBitmap = m.boomerangBitmap := by
      rw [pfree_hotAddr (by omega)]
      split_ifs
      · unfold MmState.remember
        split <;> exact ⟨rfl, rfl⟩
      · exact ⟨rfl, rfl⟩
    exact ⟨hw.trans hone.1, hb.trans hone.2⟩

/-! ## Zeroing, mapping, finding a slot -/

theorem shmZeroPages_apply (first : ℕ) (mem : ℕ → BitVec 8) (a : ℕ) : ∀ n,
    shmZeroPages first n mem a = if first ≤ a ∧ a < first + n * pageSize then 0 else mem a := by
  intro n
  induction n with
  | zero => rw [shmZeroPages, if_neg (by omega)]
  | succ n ih =>
    rw [shmZeroPages, shmZero, ih, Nat.add_mul, Nat.one_mul]
    split_ifs <;> first | rfl | omega

theorem mem_shmatMaps {ok : ℕ → Bool} {vaddr phys : ℕ} {e : ℕ × ℕ} : ∀ {n i : ℕ},
    e ∈ shmatMaps ok vaddr phys n i → ∃ j, i ≤ j ∧ j < i + n ∧ e.2 = (phys + j * pageSize) % 2 ^ 64 := by
  intro n
  induction n with
  | zero => exact fun he => absurd he List.not_mem_nil
  | succ n ih =>
    intro i he
    rw [shmatMaps] at he
    split_ifs at he
    · rcases List.mem_cons.mp he with rfl | he
      · exact ⟨i, le_refl _, by omega, rfl⟩
      · obtain ⟨j, h1, h2, h3⟩ := ih he
        exact ⟨j, by omega, by omega, h3⟩
    · exact absurd he List.not_mem_nil

theorem mem_sysShmat {ok : ℕ → Bool} {id addr flags : ℕ} {e : ℕ × ℕ}
    (he : e ∈ (sysShmat ok id addr flags s).2.1) :
    ∃ j < (s.segs id).size / pageSize, e.2 = ((s.segs id).phys + j * pageSize) % 2 ^ 64 := by
  rw [sysShmat] at he
  dsimp only at he
  split_ifs at he
  · exact absurd he List.not_mem_nil
  · exact absurd he List.not_mem_nil
  all_goals
    obtain ⟨j, -, h2, h3⟩ := mem_shmatMaps he
    exact ⟨j, by omega, h3⟩

theorem shmFind_some {test : ShmSeg → Bool} {i : ℕ} (hf : shmFind s test = some i) :
    i < shmMaxSegs ∧ test (s.segs i) = true := by
  have ht := List.find?_some hf
  exact ⟨List.mem_range.mp (List.mem_of_find?_eq_some hf), ht⟩

theorem shmFind_none {test : ShmSeg → Bool} (hf : shmFind s test = none) {i : ℕ}
    (hi : i < shmMaxSegs) : test (s.segs i) = false := by
  have := List.find?_eq_none.mp hf i (List.mem_range.mpr hi)
  simpa using this

theorem sysShmget_of_creates (ans : ℕ → ℕ → ℕ → Bool) (hc : Creates key size s) :
    ∃ slot < shmMaxSegs, (s.segs slot).used = false ∧
      sysShmget ans key size s = shmCreate ans key size slot s := by
  obtain ⟨hsize, hkey, i, hi, hfree⟩ := hc
  have hnone : (if key ≠ 0 then shmFind s fun x => x.used && decide (x.key = key) else none) =
      none := by
    split_ifs with hk
    · rcases hf : shmFind s fun x => x.used && decide (x.key = key) with _ | j
      · rfl
      · obtain ⟨hj, ht⟩ := shmFind_some hf
        rw [Bool.and_eq_true, decide_eq_true_iff] at ht
        exact absurd ht.2 (hkey hk j hj ht.1)
    · rfl
  rw [sysShmget, if_neg hsize, hnone]
  rcases hf : shmFind s fun x => !x.used with _ | slot
  · have := shmFind_none hf hi
    simp [hfree] at this
  · obtain ⟨hlt, ht⟩ := shmFind_some hf
    exact ⟨slot, hlt, by simpa using ht, rfl⟩

theorem sysShmget_of_not_creates (ans : ℕ → ℕ → ℕ → Bool) (hc : ¬ Creates key size s) :
    sysShmget ans key size s = (-1, s) ∨
      ∃ i : ℕ, (s.segs i).used = true ∧ sysShmget ans key size s = ((i : ℤ), s) := by
  rw [sysShmget]
  by_cases hsize : size = 0
  · exact .inl (if_pos hsize)
  · rw [if_neg hsize]
    rcases hf : (if key ≠ 0 then shmFind s fun x => x.used && decide (x.key = key) else none) with
      _ | i
    · rcases hg : shmFind s fun x => !x.used with _ | slot
      · exact .inl rfl
      · obtain ⟨hlt, ht⟩ := shmFind_some hg
        refine absurd ⟨hsize, fun hk j hj hu he => ?_, slot, hlt, by simpa using ht⟩ hc
        rw [if_pos hk] at hf
        have := shmFind_none hf hj
        simp [hu, he] at this
    · split_ifs at hf with hk
      obtain ⟨-, ht⟩ := shmFind_some hf
      rw [Bool.and_eq_true] at ht
      exact .inr ⟨i, ht.1, rfl⟩

/-! ## The two outcomes -/

def nextPages (size : ℕ) (m : MmState) : List ℕ := m.freeOrder.take (shmPages size)

theorem nodup_nextPages (hinv : HotInv m) : (nextPages size m).Nodup :=
  (nodup_freeOrder hinv).sublist (List.take_sublist _ _)

theorem mem_nextPages (hinv : HotInv m) (hp : p ∈ nextPages size m) :
    p < hotZonePages ∧ m.hotBit p = false :=
  (mem_freeOrder hinv).mp (List.mem_of_mem_take hp)

theorem length_freeOrder_le (hinv : HotInv m) : m.freeOrder.length ≤ hotZonePages := by
  have hsub : m.freeOrder.toFinset ⊆ Finset.range hotZonePages := by
    intro q hq
    exact Finset.mem_range.mpr ((mem_freeOrder hinv).mp (List.mem_toFinset.mp hq)).1
  have := Finset.card_le_card hsub
  rwa [List.toFinset_card_of_nodup (nodup_freeOrder hinv), Finset.card_range] at this

theorem shmCreate_enough (key slot : ℕ) (hinv : HotInv s.mm) (hn : shmPages size ≤ s.mm.freeOrder.length) :
    ∃ s', shmCreate (fun _ => accepts) key size slot s = ((slot : ℤ), s') ∧
      s'.segs slot = ⟨key, (nextPages size s.mm).length * pageSize,
        ((nextPages size s.mm).map hotAddr).headD 0, 0, true⟩ ∧
      s'.mem = shmZeroPages (((nextPages size s.mm).map hotAddr).headD 0)
        (nextPages size s.mm).length s.mem := by
  obtain ⟨m', hrun, -⟩ := shmAlloc_order (shmPages size) 0 hinv
  have hlen : (nextPages size s.mm).length = shmPages size := List.length_take_of_le hn
  have hle := length_freeOrder_le hinv
  rw [decide_eq_true hn] at hrun
  rw [shmCreate, hrun, hlen]
  refine ⟨_, rfl, ?_, rfl⟩
  have hsmall : shmPages size * pageSize < 2 ^ 64 := by
    unfold hotZonePages at hle
    unfold pageSize
    omega
  rw [Nat.mod_eq_of_lt hsmall]
  exact update_self _ _ _

theorem shmCreate_short (key slot : ℕ) (hinv : HotInv s.mm) (hn : ¬ shmPages size ≤ s.mm.freeOrder.length) :
    ∃ m', shmCreate (fun _ => accepts) key size slot s =
        (-1, { s with mm := (pfreeContig (((nextPages size s.mm).map hotAddr).headD 0)
          (nextPages size s.mm).length m') }) ∧
      HotInv m' ∧ (∀ q, m'.hotBit q = (decide (q ∈ nextPages size s.mm) || s.mm.hotBit q)) ∧
      m'.warmBitmap = s.mm.warmBitmap ∧ m'.boomerangBitmap = s.mm.boomerangBitmap := by
  obtain ⟨m', hrun, hinv', hbit, hwarm, hboom⟩ := shmAlloc_order (shmPages size) 0 hinv
  rw [decide_eq_false hn] at hrun
  refine ⟨m', ?_, hinv', hbit, hwarm, hboom⟩
  rw [shmCreate, hrun, List.length_map]
  rfl

theorem within_hotAddr {a : ℕ} (ha : hotAddr p ≤ a) (ha' : a < hotAddr p + pageSize) :
    Within (l.map hotAddr) a ↔ p ∈ l := by
  constructor
  · rintro ⟨b, hb, h1, h2⟩
    obtain ⟨q, hq, rfl⟩ := List.mem_map.mp hb
    have : q = p := by
      unfold hotAddr pageSize at *
      omega
    exact this ▸ hq
  · exact fun hp => ⟨_, List.mem_map_of_mem hp, ha, ha'⟩

theorem exists_page {n a : ℕ} (h1 : hotAddr h ≤ a) (h2 : a < hotAddr h + n * pageSize) :
    ∃ p, h ≤ p ∧ p < h + n ∧ hotAddr p ≤ a ∧ a < hotAddr p + pageSize := by
  refine ⟨h + (a - hotAddr h) / pageSize, Nat.le_add_right _ _, ?_, ?_, ?_⟩
  · have := (Nat.div_lt_iff_lt_mul (show 0 < pageSize by decide)).mpr
      (show a - hotAddr h < n * pageSize by omega)
    omega
  · rw [← hotAddr_add]
    have := Nat.div_mul_le_self (a - hotAddr h) pageSize
    omega
  · rw [← hotAddr_add]
    have := Nat.lt_div_mul_add (a := a - hotAddr h) (show 0 < pageSize by decide)
    omega

theorem ownsPages_of_interval {s' : ShmSys} (hinv : HotInv s.mm) (hslot : slot < shmMaxSegs)
    (hi : Interval (nextPages size s.mm))
    (hseg : s'.segs slot = ⟨key, (nextPages size s.mm).length * pageSize,
      ((nextPages size s.mm).map hotAddr).headD 0, 0, true⟩)
    (hmem : s'.mem = shmZeroPages (((nextPages size s.mm).map hotAddr).headD 0)
      (nextPages size s.mm).length s.mem) :
    OwnsPages ((nextPages size s.mm).map hotAddr) s s' slot := by
  have hnd : (nextPages size s.mm).Nodup := nodup_nextPages hinv
  have hzone : ∀ p ∈ nextPages size s.mm, p < hotZonePages ∧ s.mm.hotBit p = false :=
    fun p => mem_nextPages hinv
  generalize nextPages size s.mm = l at *
  have hfresh : ∀ b ∈ l.map hotAddr, ∃ p < hotZonePages, b = hotAddr p ∧ s.mm.hotBit p = false := by
    intro b hb
    obtain ⟨p, hp, rfl⟩ := List.mem_map.mp hb
    exact ⟨p, (hzone p hp).1, rfl, (hzone p hp).2⟩
  have hpages : (s'.segs slot).size / pageSize = l.length := by
    rw [hseg]
    exact Nat.mul_div_cancel _ (by decide)
  rcases hl : l with _ | ⟨h, rest⟩
  · -- a segment without pages
    subst hl
    refine ⟨hfresh, fun a h1 h2 => ?_, fun a _ => ?_, fun ok addr flags e he => ?_,
      fun t ht => ?_⟩
    · rw [hseg] at h1 h2
      simp at h2
    · rw [hmem]
      rfl
    · obtain ⟨j, hj, -⟩ := mem_sysShmat he
      rw [hpages] at hj
      exact absurd hj (Nat.not_lt_zero _)
    · rw [sysShmctl, if_neg (not_le.mpr hslot), ht, hpages, hseg]
      exact ⟨fun _ _ => rfl, rfl, rfl⟩
  · rw [← hl]
    have hhead : h ∈ l.head? := by rw [hl]; rfl
    have hfirst : (l.map hotAddr).headD 0 = hotAddr h := by rw [hl]; rfl
    have hiff : ∀ {p}, p ∈ l ↔ h ≤ p ∧ p < h + l.length := hi.mem_iff hnd hhead
    have hend : h + l.length ≤ hotZonePages := by
      have hpos : 0 < l.length := by rw [hl]; exact Nat.succ_pos _
      have := (hzone (h + l.length - 1) (hiff.mpr ⟨by omega, by omega⟩)).1
      omega
    rw [hfirst] at hseg hmem
    have hphys : (s'.segs slot).phys = hotAddr h := by rw [hseg]
    have hwithin : ∀ a, hotAddr h ≤ a → a < hotAddr h + l.length * pageSize →
        Within (l.map hotAddr) a := by
      intro a h1 h2
      obtain ⟨p, hp1, hp2, ha, ha'⟩ := exists_page h1 h2
      exact (within_hotAddr ha ha').mpr (hiff.mpr ⟨hp1, hp2⟩)
    refine ⟨hfresh, fun a h1 h2 => ?_, fun a ha => ?_, fun ok addr flags e he => ?_,
      fun t ht => ?_⟩
    · rw [hseg] at h1 h2
      exact hwithin a h1 h2
    · rw [hmem, shmZeroPages_apply, if_neg fun hc => ha (hwithin a hc.1 hc.2)]
    · obtain ⟨j, hj, he2⟩ := mem_sysShmat he
      rw [hpages] at hj
      have hsmall : hotAddr h + j * pageSize < 2 ^ 64 := by
        unfold hotAddr heapBase pageSize hotZonePages at *
        omega
      rw [he2, hphys, Nat.mod_eq_of_lt hsmall, hotAddr_add]
      exact List.mem_map_of_mem (hiff.mpr ⟨by omega, by omega⟩)
    · have hused : (t.segs slot).used = true := by rw [ht, hseg]
      rw [sysShmctl, if_neg (not_le.mpr hslot), if_neg (by rw [hused]; exact Bool.noConfusion),
        if_pos rfl, ht, hpages, hphys]
      refine ⟨fun p hp => hotBit_pfreeContig_of_not_mem fun hc => ?_, pfreeContig_zones hend⟩
      exact hp (List.mem_map_of_mem (hiff.mpr hc))

theorem interval_of_within {s' : ShmSys} (hinv : HotInv s.mm)
    (hseg : s'.segs slot = ⟨key, (nextPages size s.mm).length * pageSize,
      ((nextPages size s.mm).map hotAddr).headD 0, 0, true⟩)
    (hw : ∀ a, (s'.segs slot).phys ≤ a → a < (s'.segs slot).phys + (s'.segs slot).size →
      Within ((nextPages size s.mm).map hotAddr) a) : Interval (nextPages size s.mm) := by
  refine interval_of_covered (nodup_nextPages hinv) fun h hh p h1 h2 => ?_
  generalize nextPages size s.mm = l at *
  obtain ⟨rest, rfl⟩ : ∃ rest, l = h :: rest := by
    cases l with
    | nil => cases hh
    | cons x rest => exact ⟨rest, by rw [Option.mem_def.mp hh |> Option.some.inj]⟩
  rw [hseg] at hw
  refine (within_hotAddr (le_refl _) (Nat.lt_add_of_pos_right (by decide))).mp (hw (hotAddr p) ?_ ?_)
  · show hotAddr h ≤ hotAddr p
    unfold hotAddr pageSize
    omega
  · show hotAddr p < hotAddr h + (h :: rest).length * pageSize
    rw [hotAddr_add]
    unfold hotAddr pageSize
    omega

theorem samePages_iff (hinv : HotInv m) (hinv' : HotInv m')
    (hbit : ∀ q, m'.hotBit q = (decide (q ∈ nextPages size m) || m.hotBit q))
    (hwarm : m'.warmBitmap = m.warmBitmap) (hboom : m'.boomerangBitmap = m.boomerangBitmap) :
    SamePages m (pfreeContig (((nextPages size m).map hotAddr).headD 0)
      (nextPages size m).length m') ↔ Interval (nextPages size m) := by
  have hnd : (nextPages size m).Nodup := nodup_nextPages hinv
  have hzone : ∀ p ∈ nextPages size m, p < hotZonePages ∧ m.hotBit p = false :=
    fun p => mem_nextPages hinv
  generalize nextPages size m = l at *
  rcases hl : l with _ | ⟨h, rest⟩
  · subst hl
    refine iff_of_true ⟨fun p => ?_, hwarm, hboom⟩ fun h hh => by cases hh
    rw [List.length_nil, pfreeContig, hbit, decide_eq_false List.not_mem_nil, Bool.false_or]
  · rw [← hl]
    have hhead : h ∈ l.head? := by rw [hl]; rfl
    have hfirst : (l.map hotAddr).headD 0 = hotAddr h := by rw [hl]; rfl
    rw [hfirst]
    constructor
    · intro hsame h' hh' p hp
      cases Option.mem_unique hhead hh'
      by_contra hout
      -- a page that was obtained and is not freed again
      have hb := hsame.hot p
      rw [hotBit_pfreeContig_of_not_mem hout, hbit, decide_eq_true hp, (hzone p hp).2] at hb
      cases hb
    · intro hi
      have hiff : ∀ {p}, p ∈ l ↔ h ≤ p ∧ p < h + l.length := hi.mem_iff hnd hhead
      have hend : h + l.length ≤ hotZonePages := by
        have hpos : 0 < l.length := by rw [hl]; exact Nat.succ_pos _
        have := (hzone (h + l.length - 1) (hiff.mpr ⟨by omega, by omega⟩)).1
        omega
      obtain ⟨-, hfree⟩ := pfreeContig_spec (n := l.length) (p := h) (s := m') hend hinv'
      refine ⟨fun q => ?_, ?_, ?_⟩
      · rw [hfree, hbit, decide_eq_decide.mpr hiff.symm]
        by_cases hq : q ∈ l
        · rw [decide_eq_true hq, (hzone q hq).2]
          rfl
        · rw [decide_eq_false hq]
          rfl
      · exact (pfreeContig_zones hend).1.trans hwarm
      · exact (pfreeContig_zones hend).2.trans hboom

/-! ## The condition -/

end

/-! ## At boot, and after two pages have been freed -/

def shmOn (m : MmState) : ShmSys := ⟨fun _ => ⟨0, 0, 0, 0, false⟩, m, fun _ => 7⟩

theorem freeOrder_mmInit (m : MmState) : (mmInit m).freeOrder = List.range hotZonePages := by
  have hcached : (mmInit m).cached = [] := by
    refine List.eq_nil_iff_forall_not_mem.mpr fun p hp => ?_
    obtain ⟨ci, -, hv, -⟩ := mem_cached.mp hp
    cases hv
  rw [MmState.freeOrder, MmState.uncached, hcached, List.nil_append, List.filter_eq_self]
  intro p _
  simp [MmState.hotBit, mmInit, WordBitmap.get]

/-- A page allocator before `mm_init`. -/
def rawMm : MmState :=
  ⟨fun _ => 0, fun _ => 0, fun _ => 0, 0, 0, 0, fun _ => ⟨0, 0, false⟩⟩

def holeMm : MmState :=
  let m₁ := (pmalloc accepts (mmInit rawMm)).2
  let m₂ := (pmalloc accepts m₁).2
  let m₃ := (pmalloc accepts m₂).2
  pfree (hotAddr 2) (pfree (hotAddr 0) m₃)

def holeGet : ℤ × ShmSys := sysShmget (fun _ => accepts) 1 8192 (shmOn holeMm)

end BananaOS.Mm
