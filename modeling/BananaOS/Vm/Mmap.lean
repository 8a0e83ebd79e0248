import BananaOS.Vm.Ranges

/-!
# mmap, munmap and brk

The three calls by which a task changes its own memory.  `sys_mmap` looks for a range of pages that are
not there, beginning at the hint of the caller or at a cursor that all tasks share, and maps new pages
of zeros or of a file into it.  `sys_munmap` takes pages away.  `sys_brk` extends the heap, without
looking at what is behind the break.
-/

namespace BananaOS.Vm

open FailState RadixTree GuardedRun

/-! ## The calls -/

/-- The memory, the break of the task and the cursor of `sys_mmap`. -/
structure MmState where
  mem : PhysMem
  brk : ℕ
  cursor : ℕ

def mmapHintBase : ℕ := 0x7f0000100000

def roundUp (x : ℕ) : ℕ := (x + 0xFFF) % 2 ^ 64 / 4096 * 4096

def vmRangePresent (m : PhysMem) (root vaddr npages : ℕ) : Bool :=
  (List.range npages).any fun i => decide (vmTranslate m root ((vaddr + i * 4096) % 2 ^ 64) ≠ 0)

/-- The tries of `mmap_place_free`. -/
def placeLoop (m : PhysMem) (root npages : ℕ) : ℕ → ℕ → ℕ
  | 0, _ => 0
  | tries + 1, a =>
    if vmRangePresent m root a npages = false then a
    else placeLoop m root npages tries ((a + 4096) % 2 ^ 64)

/-- `mmap_place_free`: an address where `npages` pages are free, 0 if there is none in reach. -/
def mmapPlaceFree (m : PhysMem) (root start npages : ℕ) : ℕ :=
  placeLoop m root npages 0x40000 (roundUp start)

/-- The rights of a mapping: `PROT_READ`, `PROT_WRITE` and `PROT_EXEC` are the bits of `prot`. -/
def protFlags (prot : Word) : Word :=
  vmUser ||| (if has prot 1 then vmRead else 0) ||| (if has prot 2 then vmWrite else 0) |||
    (if has prot 4 then vmExec else 0)

/-- The arguments of `sys_mmap`; `data` is what the file gives for each page, if there is a file. -/
structure MmapArgs where
  addr : ℕ
  length : ℕ
  prot : Word
  fixed : Bool
  data : Option (ℕ → ℕ → Word)

def pagesFor (length : ℕ) : ℕ := (length + 0xFFF) % 2 ^ 64 / 4096

/-- Where `sys_mmap` maps; 0 for nowhere, unless the place is fixed. -/
def mmapBase (root : ℕ) (args : MmapArgs) (s : MmState) : ℕ :=
  if args.fixed then args.addr
  else mmapPlaceFree s.mem root (if args.addr ≠ 0 then args.addr else s.cursor) (pagesFor args.length)

/-- `sys_mmap`: the address, or a negative error.  `pm` is what `pmalloc` answers during the call. -/
def sysMmap (pm : ℕ → Option ℕ) (root : ℕ) (args : MmapArgs) (s : MmState) : ℤ × MmState :=
  if args.length = 0 then (-22, s)
  else
    let base := mmapBase root args s
    if args.fixed = false ∧ base = 0 then (-1, s)
    else
      let cursor := if args.fixed = false ∧ args.addr = 0 then
        max s.cursor (roundUp ((base + pagesFor args.length * 4096) % 2 ^ 64)) else s.cursor
      match mapPages pm root (protFlags args.prot) args.data (pagesFor args.length) 0 base
        ⟨s.mem, 0⟩ with
      | (some _, vm) => (base, ⟨vm.mem, s.brk, cursor⟩)
      | (none, vm) => (-1, ⟨vm.mem, s.brk, cursor⟩)

/-- `sys_munmap`, with the pages that it frees; `none` if it does not return. -/
def sysMunmap (root addr length : ℕ) (s : MmState) : Option (ℤ × MmState × List ℕ) :=
  if addr % 4096 ≠ 0 ∨ length = 0 then some (-22, s, [])
  else (vmUnmap s.mem (some root) addr (pagesFor length * 4096)).map fun r =>
    (0, { s with mem := r.2.1 }, r.2.2)

def sysBrk (pm : ℕ → Option ℕ) (root brk : ℕ) (s : MmState) : ℕ × MmState :=
  if brk = 0 then (s.brk, s)
  else if s.brk < brk then
    match mapPages pm root (vmUser ||| vmRead ||| vmWrite) none
      ((roundUp brk - roundUp s.brk) / 4096) 0 (roundUp s.brk) ⟨s.mem, 0⟩ with
    | (some _, vm) => (brk, ⟨vm.mem, brk, s.cursor⟩)
    | (none, vm) => (s.brk, { s with mem := vm.mem })
  else (brk, { s with brk := brk })

/-! ## The search for a place -/

variable {m : PhysMem} {root a n base length : ℕ} {prot : Word} {pm : ℕ → Option ℕ}

theorem roundUp_mod (x : ℕ) : roundUp x % 4096 = 0 := Nat.mul_mod_left _ _

theorem roundUp_of_lt {x : ℕ} (h : x < 2 ^ 48) : x ≤ roundUp x ∧ roundUp x < x + 4096 := by
  simp only [roundUp]
  omega

theorem vmRangePresent_eq_false : vmRangePresent m root a n = false ↔
    ∀ i < n, vmTranslate m root ((a + i * 4096) % 2 ^ 64) = 0 := by
  simp only [vmRangePresent, List.any_eq_false, List.mem_range, decide_eq_true_eq, not_not]

theorem placeLoop_spec : ∀ {tries a : ℕ}, a % 4096 = 0 → placeLoop m root n tries a ≠ 0 →
    placeLoop m root n tries a % 4096 = 0 ∧ vmRangePresent m root (placeLoop m root n tries a) n = false ∧
      (a + tries * 4096 < 2 ^ 64 →
        a ≤ placeLoop m root n tries a ∧ placeLoop m root n tries a < a + tries * 4096) := by
  intro tries
  induction tries with
  | zero => exact fun _ h => absurd rfl h
  | succ tries ih =>
    intro a ha h
    rw [placeLoop] at h ⊢
    by_cases hp : vmRangePresent m root a n = false
    · rw [if_pos hp]
      exact ⟨ha, hp, fun _ => ⟨le_rfl, by omega⟩⟩
    · rw [if_neg hp] at h ⊢
      obtain ⟨h1, h2, h3⟩ := ih (by omega) h
      refine ⟨h1, h2, fun hlt => ?_⟩
      rw [Nat.mod_eq_of_lt (show a + 4096 < 2 ^ 64 by omega)] at h3 ⊢
      have := h3 (by omega)
      omega

theorem protFlags_bits (prot : Word) : has (protFlags prot) vmUser ∧
    (has (protFlags prot) vmWrite ↔ has prot 2) ∧ (has (protFlags prot) vmExec ↔ has prot 4) := by
  rw [protFlags]
  by_cases h1 : has prot 1 <;> by_cases h2 : has prot 2 <;> by_cases h4 : has prot 4 <;>
    simp only [h1, h2, h4, if_true, if_false] <;> decide

theorem mapped_addrBits {f : ℕ} (hf : f < 2 ^ 40) (flags : Word) (y : ℕ) :
    mapped (addrBits f) flags y =
      ⟨f * 4096 + y % 4096, decide (has flags vmWrite), decide (has flags vmUser),
        !decide (has flags vmExec)⟩ := by
  rw [mapped, and_pteAddrMsk, frameOf_addrBits hf, addrBits_toNat hf]

def OnlyKernelAtZero (m : PhysMem) (root : ℕ) : Prop :=
  ∀ y l, walk m root y = some l → l.addr < 4096 → pageNo y = 0

theorem walk_none_of_translate (h : OnlyKernelAtZero m root) {va : ℕ}
    (h0 : vmTranslate m root va = 0) (hva : pageNo va ≠ 0) : walk m root va = none := by
  rcases hw : walk m root va with _ | l
  · rfl
  · rw [vmTranslate_eq, hw, Option.map_some, Option.getD_some] at h0
    exact absurd (h va l hw (by omega)) hva

/-! ## mmap and munmap -/

/-- What `sys_mmap` returns with address `base` has done: the pages `fs` of memory are mapped there. -/
structure MmapDone (root : ℕ) (prot : Word) (npages base : ℕ) (m m' : PhysMem) (fs : List ℕ) :
    Prop where
  aligned : base % 4096 = 0
  length : fs.length = npages
  pages : ∀ i f, fs[i]? = some f →
    walk m' root (base + i * 4096) =
      some ⟨f * 4096, decide (has prot 2), true, !decide (has prot 4)⟩ ∧ m' f = fun _ => 0
  distinct : fs.Nodup
  others : ∀ y < 2 ^ 48, y < base ∨ base + npages * 4096 ≤ y → walk m' root y = walk m root y

theorem walk_none_of_place (hzero : OnlyKernelAtZero m root) (ha : a % 4096 = 0)
    (ha0 : 4096 ≤ a) (hend : a + n * 4096 ≤ 2 ^ 48) (hfree : vmRangePresent m root a n = false)
    {y : ℕ} (hy : InRange a n y) : walk m root y = none := by
  obtain ⟨j, hj, hy⟩ := hy
  have hlt : a + j * 4096 < 2 ^ 48 := by
    have : (j + 1) * 4096 ≤ n * 4096 := Nat.mul_le_mul_right _ hj
    omega
  have htr := vmRangePresent_eq_false.mp hfree j hj
  rw [Nat.mod_eq_of_lt (by omega)] at htr
  have hpage : pageNo (a + j * 4096) ≠ 0 := by
    rw [pageNo_of_lt hlt]
    omega
  rw [walk, walkAt_of_pageNo hy le_rfl]
  have hnone := walk_none_of_translate hzero htr hpage
  rw [walk] at hnone
  rw [hnone]
  rfl

theorem userFrames_eq {w : ℕ → Option Leaf} {fs : List ℕ}
    (h : ∀ j f, fs[j]? = some f → ∃ l, w (a + j * 4096) = some l ∧ l.user = true ∧ l.addr / 4096 = f) :
    userFrames w a fs.length = fs := by
  have hone : ∀ j ∈ List.range fs.length,
      (((w (a + j * 4096)).filter Leaf.user).toList.map fun l => l.addr / 4096) = [fs.getD j 0] := by
    intro j hj
    have hj' := List.getElem?_eq_getElem (List.mem_range.mp hj)
    obtain ⟨l, hl, hu, hf⟩ := h j _ hj'
    rw [hl, Option.filter_some, if_pos hu, List.getD_eq_getElem?_getD, hj']
    show [l.addr / 4096] = [_]
    rw [hf]
    rfl
  rw [userFrames, List.flatMap_congr hone, ← List.map_eq_flatMap]
  refine List.ext_getElem (by simp) fun j h1 h2 => ?_
  rw [List.getElem_map, List.getElem_range, List.getD_eq_getElem?_getD,
    List.getElem?_eq_getElem h2]
  rfl

theorem mmapDone_of_mapPages (h : PageTables m root)
    (hbase : base % 4096 = 0) (hend : base + n * 4096 ≤ 2 ^ 48)
    (hsup : Supply pm 0 (4 * n) (IsTable m root)) {vm : VmSys}
    (hrun : mapPages pm root (protFlags prot) none n 0 base ⟨m, 0⟩ = (some (), vm)) :
    ∃ fs, MmapDone root prot n base m vm.mem fs ∧ PageTables vm.mem root ∧
      ∀ y, ¬ InRange base n y → walk vm.mem root y = walk m root y := by
  obtain ⟨fs, hfs, -, hcalls, hall, -⟩ := mapPages_spec (n := n) (i := 0) (s := ⟨m, 0⟩) h hbase
    (Nat.zero_add _).le hsup
  rw [hrun] at hfs hall hcalls
  dsimp only at hcalls
  have hlen := hall rfl
  have hout : ∀ y, ¬ InRange base n y → walk vm.mem root y = walk m root y := by
    intro y hy
    rw [hfs.walk, remapAll_of_apart]
    intro j hj heq
    exact hy ⟨j, hlen ▸ hj, heq⟩
  obtain ⟨hu, hw, hx⟩ := protFlags_bits prot
  refine ⟨fs, ⟨hbase, hlen, fun i f hf => ⟨?_, hfs.content i f hf⟩, hfs.nodup, fun y hy hyr => ?_⟩,
    hfs.inv, hout⟩
  · obtain ⟨k, -, hk, hpage⟩ := (hfs.frames f (List.mem_of_getElem? hf)).1
    have hlt : f < 2 ^ 40 := (hsup.page (Nat.zero_le k) (by dsimp only at hk; omega) hpage).1
    rw [hfs.walk, remapAll_of_mem hbase (by omega) hf rfl, mapped_addrBits hlt]
    simp only [hu, hw, hx, decide_true, Option.some.injEq, Leaf.mk.injEq, and_true]
    omega
  · refine hout y fun ⟨j, hj, heq⟩ => ?_
    have hle : (j + 1) * 4096 ≤ n * 4096 := Nat.mul_le_mul_right _ hj
    rw [pageNo_of_lt hy, pageNo_of_lt (by omega)] at heq
    omega

theorem sysMunmap_run {s : MmState} (h : PageTables s.mem root)
    (hbase : base % 4096 = 0) (hl0 : length ≠ 0) (hend : base + pagesFor length * 4096 < 2 ^ 64) :
    ∃ r, sysMunmap root base length s = some (0, { s with mem := r.1 }, r.2) ∧
      UnmapsRange root base (pagesFor length) s.mem r := by
  have hn : pagesFor length < 2 ^ 52 + 1 := by
    simp only [pagesFor]
    omega
  obtain ⟨r, hr, hspec⟩ := unmapLoop_range hn hbase hend h
  refine ⟨r, ?_, hspec⟩
  rw [sysMunmap, if_neg (not_or.mpr ⟨not_not.mpr hbase, hl0⟩), vmUnmap,
    if_neg (not_not.mpr hbase), Nat.mod_eq_of_lt hend, hr]
  rfl

theorem sysMunmap_of_mmapDone {s : MmState} {fs : List ℕ}
    (h : PageTables s.mem root) (hl0 : length ≠ 0) (hl : length < 2 ^ 46)
    (hend : base + pagesFor length * 4096 ≤ 2 ^ 48)
    (hdone : MmapDone root prot (pagesFor length) base m s.mem fs)
    (hin : ∀ y, InRange base (pagesFor length) y → walk m root y = none)
    (hout : ∀ y, ¬ InRange base (pagesFor length) y → walk s.mem root y = walk m root y) :
    ∃ s', sysMunmap root base length s = some (0, s', fs) ∧
      ∀ y, walk s'.mem root y = walk m root y := by
  have hn : pagesFor length ≤ 2 ^ 34 := by
    simp only [pagesFor]
    omega
  obtain ⟨r, hr, hspec⟩ := sysMunmap_run h hdone.aligned hl0 (by omega)
  -- every page of the range is open for the user
  have huser : ∀ j f, fs[j]? = some f → ∃ l, walk s.mem root (base + j * 4096) = some l ∧
      l.user = true ∧ l.addr / 4096 = f := by
    intro j f hj
    refine ⟨_, (hdone.pages j f hj).1, rfl, ?_⟩
    show f * 4096 / 4096 = f
    omega
  have hfreed : r.2 = fs := by
    rw [hspec.freed (by omega), ← hdone.length, userFrames_eq huser]
  refine ⟨{ s with mem := r.1 }, hfreed ▸ hr, fun y => ?_⟩
  · by_cases hy : InRange base (pagesFor length) y
    · obtain ⟨j, hj, heq⟩ := id hy
      have hj' : j < fs.length := hdone.length ▸ hj
      obtain ⟨l, hl, hu, -⟩ := huser j _ (List.getElem?_eq_getElem hj')
      rw [hin y hy]
      refine hspec.gone y hy ?_
      rw [any_user_of_pageNo heq, hl]
      exact hu
    · rw [hspec.stay y fun hc => hy hc.1, hout y hy]

section

variable {pm₀ : ℕ → Option ℕ} {stub : Option ℕ} {m₀ m : PhysMem} {ctx : VmContext} {s : VmSys}
  {calls : List MapCall}

/-- **An anonymous `mmap` and the `munmap` after it.** -/
theorem mmap_munmap_inverse (h : Built pm₀ stub m₀ ctx s calls m)
    (hzero : OnlyKernelAtZero m ctx.pml4) {addr length brk cursor : ℕ} (haddr : addr < 2 ^ 47)
    (hcursor : addr = 0 → cursor < 2 ^ 47) (hpos : 1 ≤ length) (hlt : length < 2 ^ 46) (prot : Word)
    {pm : ℕ → Option ℕ} (hsup : Supply pm 0 (4 * pagesFor length) (IsTable m ctx.pml4))
    {base : ℕ} {t : MmState}
    (hrun : sysMmap pm ctx.pml4 ⟨addr, length, prot, false, none⟩ ⟨m, brk, cursor⟩ =
      ((base : ℤ), t)) :
    ∃ fs, MmapDone ctx.pml4 prot (pagesFor length) base m t.mem fs ∧
      ∃ t', sysMunmap ctx.pml4 base length t = some (0, t', fs) ∧
        ∀ y, walk t'.mem ctx.pml4 y = walk m ctx.pml4 y := by
  have hn : pagesFor length ≤ 2 ^ 34 := by
    simp only [pagesFor]
    omega
  rw [sysMmap, if_neg (show ¬ (length = 0) by omega)] at hrun
  dsimp only at hrun
  generalize hb : mmapBase ctx.pml4 ⟨addr, length, prot, false, none⟩ ⟨m, brk, cursor⟩ = b at hrun
  by_cases hb0 : b = 0
  · rw [if_pos ⟨rfl, hb0⟩] at hrun
    have := congrArg Prod.fst hrun
    dsimp only at this
    omega
  rw [if_neg fun hc => hb0 hc.2] at hrun
  -- the place that was found
  have hstart : (if addr ≠ 0 then addr else cursor) < 2 ^ 47 := by
    split_ifs with h0
    · exact haddr
    · exact hcursor (not_not.mp h0)
  rw [mmapBase, if_neg Bool.false_ne_true, mmapPlaceFree] at hb
  dsimp only at hb
  generalize (if addr ≠ 0 then addr else cursor) = start at hb hstart
  have hround := roundUp_of_lt (show start < 2 ^ 48 by omega)
  obtain ⟨hal, hfree, hreach⟩ := placeLoop_spec (roundUp_mod start) (hb ▸ hb0)
  rw [hb] at hal hfree hreach
  have hreach' := hreach (by omega)
  rcases hmap : mapPages pm ctx.pml4 (protFlags prot) none (pagesFor length) 0 b ⟨m, 0⟩ with ⟨_ | _, vm⟩
  · rw [hmap] at hrun
    have := congrArg Prod.fst hrun
    dsimp only at this
    omega
  rw [hmap] at hrun
  obtain rfl : b = base := Int.ofNat.inj (congrArg Prod.fst hrun)
  have ht : t.mem = vm.mem := (congrArg (fun r => r.2.mem) hrun).symm
  obtain ⟨fs, hdone, hinv, hout⟩ := mmapDone_of_mapPages h.inv hal (by omega) hsup hmap
  rw [← ht] at hdone hinv hout
  exact ⟨fs, hdone, sysMunmap_of_mmapDone hinv (by omega) hlt (by omega) hdone
    (fun y => walk_none_of_place hzero hal (by omega) (by omega) hfree) hout⟩

end

theorem sysMmap_of_free (h : PageTables m root) (brk : ℕ)
    {addr cursor start : ℕ} (hstart : (if addr ≠ 0 then addr else cursor) = start) (ha0 : start ≠ 0)
    (hal : start % 4096 = 0) (hlt : start < 2 ^ 64 - 4096) (hl0 : length ≠ 0)
    (hfree : vmRangePresent m root start (pagesFor length) = false)
    (hsup : Supply pm 0 (4 * pagesFor length) (IsTable m root)) (hpm : ∀ k, pm k ≠ none) :
    ∃ t fs calls,
      sysMmap pm root ⟨addr, length, prot, false, none⟩ ⟨m, brk, cursor⟩ = ((start : ℤ), t) ∧
      t.brk = brk ∧ fs.length = pagesFor length ∧ calls ≤ 4 * pagesFor length ∧
      MapsPages pm root (protFlags prot) (pageData none) 0 start ⟨m, 0⟩ ⟨t.mem, calls⟩ fs := by
  have hround : roundUp start = start := by
    simp only [roundUp]
    omega
  have hbase : mmapBase root ⟨addr, length, prot, false, none⟩ ⟨m, brk, cursor⟩ = start := by
    rw [mmapBase, if_neg Bool.false_ne_true, mmapPlaceFree, hstart, hround]
    show placeLoop m root (pagesFor length) (0x3FFFF + 1) start = start
    rw [placeLoop, if_pos hfree]
  rw [sysMmap, if_neg hl0]
  dsimp only
  rw [hbase, if_neg fun h => ha0 h.2]
  obtain ⟨fs, hfs, -, hcalls, hall, hnone⟩ := @mapPages_spec pm root (protFlags prot) none _ 0 _ ⟨m, 0⟩
    h hal _ (Nat.zero_add _).le hsup
  revert hfs hcalls hall hnone
  rcases mapPages pm root (protFlags prot) none (pagesFor length) 0 start ⟨m, 0⟩ with ⟨_ | _, vm⟩
  · intro _ _ _ hnone
    obtain ⟨k, -, -, hk⟩ := hnone rfl
    exact absurd hk (hpm k)
  · intro hfs hcalls hall _
    exact ⟨_, fs, vm.calls, rfl, rfl, hall rfl, by dsimp only at hcalls; omega, hfs⟩

/-! ## Two runs -/

theorem onlyKernelAtZero_first : OnlyKernelAtZero firstMem 1 := by
  intro y l hl hlt
  rw [walk_first, kernelMap] at hl
  split_ifs at hl
  cases hl
  simp only [pageNo] at hlt ⊢
  omega

theorem vmTranslate_first {va : ℕ} (h : kernelMap va = none) : vmTranslate firstMem 1 va = 0 := by
  rw [vmTranslate_eq, walk_first, h]
  rfl

theorem mmap_munmap_inverse_first : ∃ fs t,
    sysMmap (pagesFrom 10) 1 ⟨0x400000000000, 0x1001, 3, false, none⟩ ⟨firstMem, 0, mmapHintBase⟩ =
      (((0x400000000000 : ℕ) : ℤ), t) ∧
    MmapDone 1 3 2 0x400000000000 firstMem t.mem fs ∧
    ∃ t', sysMunmap 1 0x400000000000 0x1001 t = some (0, t', fs) ∧
      ∀ y, walk t'.mem 1 y = walk firstMem 1 y := by
  have hfree : vmRangePresent firstMem 1 0x400000000000 (pagesFor 0x1001) = false := by
    rw [vmRangePresent_eq_false]
    intro i hi
    refine vmTranslate_first ?_
    rw [show pagesFor 0x1001 = 2 from rfl] at hi
    rw [kernelMap, if_neg (by omega)]
  obtain ⟨t, -, -, hrun, -⟩ := sysMmap_of_free built_first.inv 0 (if_pos (by decide)) (by decide)
    (by decide) (by decide) (by decide) hfree (fresh_first (by decide)) (by intro k h; cases h)
  obtain ⟨fs, hdone, hback⟩ := mmap_munmap_inverse built_first onlyKernelAtZero_first (by decide)
    (fun h => absurd h (by decide)) (by decide) (by decide) 3 (fresh_first (by decide)) hrun
  exact ⟨fs, t, hrun, hdone, hback⟩

def zeroMem : PhysMem :=
  (vmMapPage (pagesFrom 10) 1 0x400000000000 0 (vmUser ||| vmWrite) ⟨firstMem, 0⟩).2.mem

theorem remapped_zero : Remapped (pagesFrom 10) 1 0x400000000000
    (fun y => some (mapped 0 (vmUser ||| vmWrite) y)) ⟨firstMem, 0⟩
    (vmMapPage (pagesFrom 10) 1 0x400000000000 0 (vmUser ||| vmWrite) ⟨firstMem, 0⟩).2 ∧
    (vmMapPage (pagesFrom 10) 1 0x400000000000 0 (vmUser ||| vmWrite) ⟨firstMem, 0⟩).2.calls ≤ 0 + 3 := by
  obtain ⟨-, -, -, -, k, -, -, hk⟩ | ⟨t, ht, hcalls, hre⟩ :=
    vmMapPage_spec (s := ⟨firstMem, 0⟩) built_first.inv (by decide : 0x400000000000 % 4096 = 0) 0
      (vmUser ||| vmWrite) (fresh_first (by decide))
  · cases hk
  · rw [ht]
    exact ⟨hre, hcalls⟩

theorem walk_zeroMem (y : ℕ) : walk zeroMem 1 y =
    remap 0x400000000000 (fun y => some (mapped 0 (vmUser ||| vmWrite) y)) kernelMap y := by
  rw [← funext walk_first]
  exact remapped_zero.1.walk y

theorem fresh_zero {b : ℕ} (hb : b ≤ 2 ^ 30) : Supply (pagesFrom 20) 0 b (IsTable zeroMem 1) := by
  refine supply_pagesFrom (by omega) fun k _ htab => ?_
  rcases remapped_zero.1.grows.fresh _ htab with htab | ⟨j, -, hj, hpage⟩
  · obtain ⟨j, -, hj, hpage⟩ := created_first.1.fresh _ htab
    have hpage' : j + 1 = k + 20 := Option.some.inj hpage
    have hcalls := created_first.2
    omega
  · have hpage' : j + 10 = k + 20 := Option.some.inj hpage
    have hcalls := remapped_zero.2
    omega

/-- **Places that are taken for free.**  A page that is mapped to physical page 0 is there, but `mmap`
takes its place, and after `munmap` it is gone.  And a cursor beyond `2 ^ 48` stands for addresses at the
bottom: there a page appears where nothing was asked for. -/
theorem mmap_takes_what_is_there :
    (∃ calls, Built (pagesFrom 1) none (fun _ _ => 0) ⟨1, 0⟩
        (vmCreate (pagesFrom 1) none ⟨fun _ _ => 0, 0⟩).2 calls zeroMem ∧
      Supply (pagesFrom 20) 0 4 (IsTable zeroMem 1) ∧
      ∃ t t' freed,
        sysMmap (pagesFrom 20) 1 ⟨0x400000000000, 1, 3, false, none⟩ ⟨zeroMem, 0, mmapHintBase⟩ =
          (((0x400000000000 : ℕ) : ℤ), t) ∧
        sysMunmap 1 0x400000000000 1 t = some (0, t', freed) ∧
        walk t'.mem 1 0x400000000000 = none ∧ walk zeroMem 1 0x400000000000 ≠ none) ∧
    ∃ t, sysMmap (pagesFrom 10) 1 ⟨0, 1, 3, false, none⟩ ⟨firstMem, 0, 2 ^ 48 + 0x400000000000⟩ =
        (((2 ^ 48 + 0x400000000000 : ℕ) : ℤ), t) ∧
      walk t.mem 1 0x400000000000 ≠ walk firstMem 1 0x400000000000 := by
  constructor
  · have hfree : vmRangePresent zeroMem 1 0x400000000000 (pagesFor 1) = false := by
      rw [vmRangePresent_eq_false]
      intro i hi
      obtain rfl : i = 0 := Nat.lt_one_iff.mp hi
      rw [vmTranslate_eq, walk_zeroMem]
      decide +kernel
    obtain ⟨t, fs, calls, hrun, -, hlen, -, hfs⟩ := sysMmap_of_free remapped_zero.1.inv 0
      (if_pos (by decide)) (by decide) (by decide) (by decide) (by decide) hfree (fresh_zero (by decide))
      fun k h => nomatch h
    obtain ⟨r, hr, hspec⟩ := sysMunmap_run hfs.inv (by decide : 0x400000000000 % 4096 = 0)
      (by decide : (1 : ℕ) ≠ 0) (by decide)
    refine ⟨[.map (pagesFrom 10) 0x400000000000 0 (vmUser ||| vmWrite)],
      ⟨built_first.create, built_first.supply, .cons (fresh_first (by decide)) rfl (.nil _)⟩,
      fresh_zero (by decide), t, _, _, hrun, hr, ?_, ?_⟩
    · refine hspec.gone _ ⟨0, by decide, rfl⟩ ?_
      have hpos : 0 < fs.length := hlen ▸ (by decide : 0 < pagesFor 1)
      rw [hfs.walk, remapAll_of_mem (by decide) (hlen ▸ (by decide : pagesFor 1 ≤ 2 ^ 36))
        (List.getElem?_eq_getElem hpos) rfl]
      rfl
    · rw [walk_zeroMem]
      decide +kernel
  · have hfree : vmRangePresent firstMem 1 (2 ^ 48 + 0x400000000000) (pagesFor 1) = false := by
      rw [vmRangePresent_eq_false]
      intro i hi
      obtain rfl : i = 0 := Nat.lt_one_iff.mp hi
      exact vmTranslate_first (by decide +kernel)
    obtain ⟨t, fs, calls, hrun, -, hlen, -, hfs⟩ := sysMmap_of_free built_first.inv 0
      (if_neg (by decide : ¬ (0 : ℕ) ≠ 0))
      (by decide) (by decide) (by decide) (by decide) hfree (fresh_first (by decide))
      fun k h => nomatch h
    refine ⟨t, hrun, ?_⟩
    have hpos : 0 < fs.length := hlen ▸ (by decide : 0 < pagesFor 1)
    rw [show walk t.mem 1 0x400000000000 = _ from hfs.walk _, remapAll_of_mem (by decide) (hlen ▸ (by decide : pagesFor 1 ≤ 2 ^ 36))
      (List.getElem?_eq_getElem hpos) (by decide +kernel), walk_first]
    exact fun h => nomatch h

end BananaOS.Vm
