import BananaOS.Vm.Mmap

/-!
# Where new memory is put

`sys_mmap` asks the tables whether a place is free, `sys_brk` does not: it maps new pages from the break
on, whatever is there.  So memory that the task has is safe from `sys_mmap`, and it is safe from
`sys_brk` as long as nothing of it lies in the way of the break.
-/

namespace BananaOS.Vm

open FailState RadixTree GuardedRun

/-- A task's memory, and the pages of the regions that it has from `sys_mmap`. -/
structure Places where
  mm : MmState
  live : ℕ → Prop

inductive PlaceCall where
  | mmap (pm : ℕ → Option ℕ) (addr length : ℕ) (prot : Word) (data : Option (ℕ → ℕ → Word))
  | munmap (addr length : ℕ)
  | brk (pm : ℕ → Option ℕ) (brk : ℕ)

def Places.step (root : ℕ) (s : Places) : PlaceCall → Option Places
  | .mmap pm addr length prot data =>
    let r := sysMmap pm root ⟨addr, length, prot, false, data⟩ s.mm
    some ⟨r.2, fun p => s.live p ∨
      (0 ≤ r.1 ∧ ∃ j < pagesFor length, p = pageNo (r.1.toNat + j * 4096))⟩
  | .munmap addr length =>
    (sysMunmap root addr length s.mm).map fun r => ⟨r.2.1, fun p => s.live p ∧
      ¬ (r.1 = 0 ∧ ∃ j < pagesFor length, p = pageNo (addr + j * 4096))⟩
  | .brk pm brk => some ⟨(sysBrk pm root brk s.mm).2, s.live⟩

def Heap (base brk p : ℕ) : Prop := ∃ b, base ≤ b ∧ b < brk ∧ pageNo b = p

def Places.Belongs (base : ℕ) (s : Places) (p : ℕ) : Prop := s.live p ∨ Heap base s.mm.brk p

def PlaceCall.Covers (y : ℕ) : PlaceCall → Prop
  | .munmap addr length => InRange addr (pagesFor length) y
  | _ => False

/-- **The call keeps the memory of the task**: the translation of every page that belongs to it, and
what is in the page of memory behind. -/
def Keeps (root base : ℕ) (s : Places) (c : PlaceCall) (s' : Places) : Prop :=
  ∀ y, s.Belongs base (pageNo y) → c.Covers y ∨
    (walk s'.mm.mem root y = walk s.mm.mem root y ∧
      ∀ l, walk s.mm.mem root y = some l → s'.mm.mem (l.addr / 4096) = s.mm.mem (l.addr / 4096))

def Used (m : PhysMem) (root f : ℕ) : Prop :=
  IsTable m root f ∨ ∃ y l, walk m root y = some l ∧ l.user = true ∧ l.addr / 4096 = f

def brkPages (s : MmState) (brk : ℕ) : ℕ :=
  if s.brk < brk then (roundUp brk - roundUp s.brk) / 4096 else 0

def AllocatorSound (root : ℕ) (s : Places) : PlaceCall → Prop
  | .mmap pm _ length _ _ =>
    Supply pm 0 (4 * pagesFor length) (Used s.mm.mem root) ∧ ∀ k, pm k ≠ some 0
  | .munmap _ _ => True
  | .brk pm brk => Supply pm 0 (4 * brkPages s.mm brk) (Used s.mm.mem root) ∧ ∀ k, pm k ≠ some 0

def Avoids (root base : ℕ) (s : Places) : PlaceCall → Prop
  | .mmap _ _ _ _ _ => ∀ y, Heap base s.mm.brk (pageNo y) → walk s.mm.mem root y ≠ none
  | .munmap _ _ => True
  | .brk _ brk => brk ≤ 2 ^ 64 - 4096 ∧
    ∀ j < brkPages s.mm brk, ¬ s.Belongs base (pageNo (roundUp s.mm.brk + j * 4096))

/-- **What holds of the memory of a task.** -/
structure Places.Inv (root base : ℕ) (s : Places) : Prop where
  tables : PageTables s.mm.mem root
  own : ∀ y l, s.Belongs base (pageNo y) → walk s.mm.mem root y = some l →
    l.user = true ∧ 4096 ≤ l.addr ∧ ¬ IsTable s.mm.mem root (l.addr / 4096)
  there : ∀ y, s.live (pageNo y) → walk s.mm.mem root y ≠ none

/-! ## Mapping a range that belongs to nobody -/

section

variable {root base : ℕ} {s : Places}

theorem supply_tables {pm : ℕ → Option ℕ} {a b : ℕ} {m : PhysMem}
    (h : Supply pm a b (Used m root)) : Supply pm a b (IsTable m root) :=
  ⟨fun _ _ ha hb hg => ⟨(h.page ha hb hg).1, fun ht => (h.page ha hb hg).2 (Or.inl ht)⟩, h.apart⟩

/-- What `mapPages` does to the memory of the task, when its range belongs to nobody. -/
structure Spares (root base : ℕ) (s : Places) (a n : ℕ) (m' : PhysMem) : Prop where
  tables : PageTables m' root
  walk : ∀ y, ¬ InRange a n y → walk m' root y = Vm.walk s.mm.mem root y
  keeps : ∀ y, s.Belongs base (pageNo y) → Vm.walk m' root y = Vm.walk s.mm.mem root y ∧
    ∀ l, Vm.walk s.mm.mem root y = some l → m' (l.addr / 4096) = s.mm.mem (l.addr / 4096)
  own : ∀ y l, s.Belongs base (pageNo y) → Vm.walk m' root y = some l →
    l.user = true ∧ 4096 ≤ l.addr ∧ ¬ IsTable m' root (l.addr / 4096)

def OwnPages (root a n : ℕ) (m' : PhysMem) : Prop :=
  ∀ y, InRange a n y → ∃ l, walk m' root y = some l ∧
    l.user = true ∧ 4096 ≤ l.addr ∧ ¬ IsTable m' root (l.addr / 4096)

theorem mapPages_spares (h : s.Inv root base) {pm : ℕ → Option ℕ} {flags : Word}
    {data : Option (ℕ → ℕ → Word)} {a n : ℕ} (ha : a % 4096 = 0)
    (hsup : Supply pm 0 (4 * n) (Used s.mm.mem root)) (hnull : ∀ k, pm k ≠ some 0)
    (huser : has flags vmUser) (hfree : ∀ y, InRange a n y → ¬ s.Belongs base (pageNo y)) :
    Spares root base s a n (mapPages pm root flags data n 0 a ⟨s.mm.mem, 0⟩).2.mem ∧
      ((mapPages pm root flags data n 0 a ⟨s.mm.mem, 0⟩).1 = some () →
        OwnPages root a n (mapPages pm root flags data n 0 a ⟨s.mm.mem, 0⟩).2.mem) := by
  obtain ⟨fs, hfs, hlen, hcalls, hall, -⟩ := @mapPages_spec pm root flags data n 0 a ⟨s.mm.mem, 0⟩
    h.tables ha _ (Nat.zero_add _).le (supply_tables hsup)
  generalize mapPages pm root flags data n 0 a ⟨s.mm.mem, 0⟩ = r at *
  dsimp only at hcalls
  have hwalk : ∀ y, ¬ InRange a n y → walk r.2.mem root y = walk s.mm.mem root y := by
    intro y hy
    rw [hfs.walk, remapAll_of_apart]
    exact fun j hj heq => hy ⟨j, hj.trans_le hlen, heq⟩
  have hfresh : ∀ f, Took pm 0 r.2.calls f → f < 2 ^ 40 ∧ ¬ Used s.mm.mem root f := by
    rintro f ⟨k, -, hk, hpm⟩
    exact hsup.page (Nat.zero_le k) (by omega) hpm
  -- the memory behind a page of the task is neither a table nor new
  have hbehind : ∀ y l, s.Belongs base (pageNo y) → walk s.mm.mem root y = some l →
      ¬ IsTable s.mm.mem root (l.addr / 4096) ∧ ¬ Took pm 0 r.2.calls (l.addr / 4096) := by
    intro y l hy hl
    obtain ⟨hu, -, htab⟩ := h.own y l hy hl
    exact ⟨htab, fun ht => (hfresh _ ht).2 (Or.inr ⟨y, l, hl, hu, rfl⟩)⟩
  have hsame : ∀ y, s.Belongs base (pageNo y) → walk r.2.mem root y = walk s.mm.mem root y :=
    fun y hy => hwalk y fun hin => hfree y hin hy
  refine ⟨⟨hfs.inv, hwalk, fun y hy => ⟨hsame y hy, fun l hl => ?_⟩, fun y l hy hl => ?_⟩,
    fun hr y hin => ?_⟩
  · by_contra hne
    obtain ⟨htab, htook⟩ := hbehind y l hy hl
    exact (hfs.changed _ hne).elim htab htook
  · rw [hsame y hy] at hl
    obtain ⟨hu, hpos, -⟩ := h.own y l hy hl
    obtain ⟨htab, htook⟩ := hbehind y l hy hl
    exact ⟨hu, hpos, fun ht => (hfs.tables _ ht).elim htab htook⟩
  · rw [← hall hr] at hin
    obtain ⟨f, hf, hrun⟩ := remapAll_of_inRange (w := walk s.mm.mem root) hin
    obtain ⟨htook, htab⟩ := hfs.frames f hf
    have hlt := (hfresh f htook).1
    have hf0 : f ≠ 0 := by
      rintro rfl
      obtain ⟨k, -, -, hk⟩ := htook
      exact hnull k hk
    have hdiv : (f * 4096 + y % 4096) / 4096 = f := by omega
    refine ⟨_, (hfs.walk y).trans hrun, ?_⟩
    rw [mapped_addrBits hlt]
    refine ⟨decide_eq_true huser, ?_, ?_⟩
    · show 4096 ≤ f * 4096 + y % 4096
      omega
    · show ¬ IsTable r.2.mem root ((f * 4096 + y % 4096) / 4096)
      rwa [hdiv]

end

/-! ## The three calls -/

section

variable {root base : ℕ} {s : Places}

theorem not_belongs_of_free (h : s.Inv root base)
    (hheap : ∀ y, Heap base s.mm.brk (pageNo y) → walk s.mm.mem root y ≠ none) {a n : ℕ}
    (ha : a % 4096 = 0) (hfree : vmRangePresent s.mm.mem root a n = false) {y : ℕ}
    (hy : InRange a n y) : ¬ s.Belongs base (pageNo y) := by
  intro hb
  obtain ⟨j, hj, heq⟩ := hy
  have htr := vmRangePresent_eq_false.mp hfree j hj
  rw [vmTranslate_eq] at htr
  have heq' : pageNo ((a + j * 4096) % 2 ^ 64) = pageNo y := by rw [pageNo_mod, heq]
  rw [← heq'] at hb
  rcases hw : walk s.mm.mem root ((a + j * 4096) % 2 ^ 64) with _ | l
  · rcases hb with hb | hb
    · exact h.there _ hb hw
    · exact hheap _ hb hw
  · have hpos := (h.own _ l hb hw).2.1
    rw [hw] at htr
    have htr' : l.addr = 0 := htr
    omega

theorem placed_mod {start n : ℕ} {m : PhysMem} (h : mmapPlaceFree m root start n ≠ 0) :
    mmapPlaceFree m root start n % 4096 = 0 ∧
      vmRangePresent m root (mmapPlaceFree m root start n) n = false := by
  obtain ⟨h1, h2, -⟩ := placeLoop_spec (roundUp_mod start) h
  exact ⟨h1, h2⟩

theorem sysMmap_cases (pm : ℕ → Option ℕ) (root addr length : ℕ) (prot : Word)
    (data : Option (ℕ → ℕ → Word)) (s : MmState) :
    ((sysMmap pm root ⟨addr, length, prot, false, data⟩ s).1 < 0 ∧
      (sysMmap pm root ⟨addr, length, prot, false, data⟩ s).2 = s) ∨
    ∃ b vm r, b % 4096 = 0 ∧ vmRangePresent s.mem root b (pagesFor length) = false ∧
      mapPages pm root (protFlags prot) data (pagesFor length) 0 b ⟨s.mem, 0⟩ = (r, vm) ∧
      (sysMmap pm root ⟨addr, length, prot, false, data⟩ s).2.mem = vm.mem ∧
      (sysMmap pm root ⟨addr, length, prot, false, data⟩ s).2.brk = s.brk ∧
      (sysMmap pm root ⟨addr, length, prot, false, data⟩ s).1 =
        match r with
        | some _ => (b : ℤ)
        | none => -1 := by
  rw [sysMmap]
  dsimp only
  by_cases hl : length = 0
  · rw [if_pos hl]
    exact Or.inl ⟨(by decide : (-22 : ℤ) < 0), rfl⟩
  rw [if_neg hl]
  generalize hb : mmapBase root ⟨addr, length, prot, false, data⟩ s = b
  by_cases hb0 : b = 0
  · rw [if_pos ⟨rfl, hb0⟩]
    exact Or.inl ⟨(by decide : (-1 : ℤ) < 0), rfl⟩
  rw [if_neg fun h => hb0 h.2]
  rw [mmapBase, if_neg Bool.false_ne_true] at hb
  have hplace := placed_mod (hb ▸ hb0)
  rw [hb] at hplace
  refine Or.inr ⟨b, (mapPages pm root (protFlags prot) data (pagesFor length) 0 b ⟨s.mem, 0⟩).2,
    (mapPages pm root (protFlags prot) data (pagesFor length) 0 b ⟨s.mem, 0⟩).1, hplace.1, hplace.2,
    rfl, ?_⟩
  rcases mapPages pm root (protFlags prot) data (pagesFor length) 0 b ⟨s.mem, 0⟩ with ⟨_ | _, vm⟩
  · exact ⟨rfl, rfl, rfl⟩
  · exact ⟨rfl, rfl, rfl⟩

theorem mmap_inv (h : s.Inv root base) {pm : ℕ → Option ℕ} {addr length : ℕ} {prot : Word}
    {data : Option (ℕ → ℕ → Word)} (hok : Avoids root base s (.mmap pm addr length prot data))
    (hal : AllocatorSound root s (.mmap pm addr length prot data)) {s' : Places}
    (hstep : s.step root (.mmap pm addr length prot data) = some s') :
    s'.Inv root base ∧ Keeps root base s (.mmap pm addr length prot data) s' := by
  cases hstep
  generalize hr : sysMmap pm root ⟨addr, length, prot, false, data⟩ s.mm = r
  obtain ⟨hneg, hsame⟩ | ⟨b, vm, q, hb, hfree, hrun, hmem, hbrk, hres⟩ :=
    sysMmap_cases pm root addr length prot data s.mm
  · -- nothing was done
    rw [hr] at hneg hsame
    have hlive : ∀ p, (s.live p ∨ (0 ≤ r.1 ∧ ∃ j < pagesFor length,
        p = pageNo (r.1.toNat + j * 4096))) ↔ s.live p :=
      fun p => or_iff_left fun hc => absurd hc.1 (not_le.mpr hneg)
    refine ⟨⟨?_, fun y l hy => ?_, fun y hy => ?_⟩, fun y _ => Or.inr ⟨?_, fun l _ => ?_⟩⟩
    · rw [hsame]
      exact h.tables
    · simp only [Places.Belongs, hlive, hsame] at hy
      rw [hsame]
      exact h.own y l hy
    · rw [hsame]
      exact h.there y ((hlive _).mp hy)
    · rw [hsame]
    · rw [hsame]
  · rw [hr] at hmem hbrk hres
    obtain ⟨hspares, hown⟩ := mapPages_spares h hb hal.1 hal.2 (protFlags_bits prot).1
      (fun y hy => not_belongs_of_free h hok hb hfree hy)
    rw [hrun] at hspares hown
    -- the pages of the new region are those that were mapped
    have hnew : ∀ y, (0 ≤ r.1 ∧ ∃ j < pagesFor length, pageNo y = pageNo (r.1.toNat + j * 4096)) →
        ∃ l, walk vm.mem root y = some l ∧
          l.user = true ∧ 4096 ≤ l.addr ∧ ¬ IsTable vm.mem root (l.addr / 4096) := by
      rintro y ⟨hpos, hin⟩
      rcases q with _ | _
      · rw [show r.1 = -1 from hres] at hpos
        exact absurd hpos (by decide)
      · rw [hres, Int.toNat_natCast] at hin
        exact hown rfl y hin
    refine ⟨⟨?_, fun y l hy hl => ?_, fun y hy => ?_⟩, fun y hy => Or.inr ?_⟩
    · rw [hmem]
      exact hspares.tables
    · rw [hmem] at hl ⊢
      rcases hy with (hy | hy) | hy
      · exact hspares.own y l (Or.inl hy) hl
      · obtain ⟨l', hl', hgood⟩ := hnew y hy
        cases Option.some.inj (hl.symm.trans hl')
        exact hgood
      · rw [hbrk] at hy
        exact hspares.own y l (Or.inr hy) hl
    · rw [hmem]
      rcases hy with hy | hy
      · rw [(hspares.keeps y (Or.inl hy)).1]
        exact h.there y hy
      · obtain ⟨l, hl, -⟩ := hnew y hy
        rw [hl]
        exact Option.some_ne_none l
    · dsimp only
      rw [hmem]
      exact hspares.keeps y hy

theorem heap_grow (hbase : base % 4096 = 0) {old new p : ℕ} (hle : new ≤ 2 ^ 64 - 4096)
    (hlt : old < new) (hp : Heap base new p) : Heap base old p ∨
      ∃ j < (roundUp new - roundUp old) / 4096, p = pageNo (roundUp old + j * 4096) := by
  obtain ⟨c, hc, hcn, rfl⟩ := hp
  have hold : roundUp old = (old + 0xFFF) / 4096 * 4096 := by
    simp only [roundUp]
    omega
  have hnew : roundUp new = (new + 0xFFF) / 4096 * 4096 := by
    simp only [roundUp]
    omega
  by_cases hco : c < roundUp old
  · -- the page of `c` begins below the old break
    refine Or.inl ⟨c / 4096 * 4096, by omega, by omega, ?_⟩
    simp only [pageNo]
    omega
  · refine Or.inr ⟨(c - roundUp old) / 4096, by omega, ?_⟩
    have hsame : (roundUp old + (c - roundUp old) / 4096 * 4096) / 4096 = c / 4096 := by omega
    rw [pageNo, pageNo, hsame]

theorem brk_inv (hbase : base % 4096 = 0) (h : s.Inv root base) {pm : ℕ → Option ℕ} {brk : ℕ}
    (hok : Avoids root base s (.brk pm brk)) (hal : AllocatorSound root s (.brk pm brk)) {s' : Places}
    (hstep : s.step root (.brk pm brk) = some s') :
    s'.Inv root base ∧ Keeps root base s (.brk pm brk) s' := by
  cases hstep
  rw [sysBrk]
  have hidle : ∀ y, s.Belongs base (pageNo y) → PlaceCall.Covers y (.brk pm brk) ∨
      (walk s.mm.mem root y = walk s.mm.mem root y ∧ ∀ l, walk s.mm.mem root y = some l →
        s.mm.mem (l.addr / 4096) = s.mm.mem (l.addr / 4096)) :=
    fun y _ => Or.inr ⟨rfl, fun _ _ => rfl⟩
  by_cases h0 : brk = 0
  · rw [if_pos h0]
    exact ⟨h, hidle⟩
  rw [if_neg h0]
  by_cases hgrow : s.mm.brk < brk
  · rw [if_pos hgrow]
    have hn : brkPages s.mm brk = (roundUp brk - roundUp s.mm.brk) / 4096 := if_pos hgrow
    obtain ⟨hle, hfree⟩ := hok
    obtain ⟨hsup, hnull⟩ := hal
    rw [hn] at hfree hsup
    obtain ⟨hspares, hown⟩ := @mapPages_spares root base s h pm (vmUser ||| vmRead ||| vmWrite) none _ _
      (roundUp_mod s.mm.brk) hsup hnull (by decide) fun y ⟨j, hj, heq⟩ => heq ▸ hfree j hj
    rcases hrun : mapPages pm root (vmUser ||| vmRead ||| vmWrite) none
      ((roundUp brk - roundUp s.mm.brk) / 4096) 0 (roundUp s.mm.brk) ⟨s.mm.mem, 0⟩ with ⟨_ | _, vm⟩
    · rw [hrun] at hspares
      refine ⟨⟨hspares.tables, hspares.own, fun y hy => ?_⟩, fun y hy => Or.inr (hspares.keeps y hy)⟩
      show walk vm.mem root y ≠ none
      rw [(hspares.keeps y (Or.inl hy)).1]
      exact h.there y hy
    · rw [hrun] at hspares hown
      refine ⟨⟨hspares.tables, fun y l hy hl => ?_, fun y hy => ?_⟩,
        fun y hy => Or.inr (hspares.keeps y hy)⟩
      · rcases hy with hy | hy
        · exact hspares.own y l (Or.inl hy) hl
        · rcases heap_grow hbase hle hgrow hy with hy | hy
          · exact hspares.own y l (Or.inr hy) hl
          · obtain ⟨l', hl', hgood⟩ := hown rfl y hy
            cases Option.some.inj (hl.symm.trans hl')
            exact hgood
      · show walk vm.mem root y ≠ none
        rw [(hspares.keeps y (Or.inl hy)).1]
        exact h.there y hy
  · rw [if_neg hgrow]
    refine ⟨⟨h.tables, fun y l hy => h.own y l ?_, h.there⟩, hidle⟩
    refine hy.imp_right fun ⟨c, h1, h2, h3⟩ => ⟨c, h1, ?_, h3⟩
    dsimp only at h2
    omega

theorem sysMunmap_cases (h : PageTables s.mm.mem root) (addr length : ℕ) :
    (∃ e, sysMunmap root addr length s.mm = some (e, s.mm, [])) ∨
    ∃ r, sysMunmap root addr length s.mm = some (0, { s.mm with mem := r.1 }, r.2) ∧
      UnmapsRange root addr (pagesFor length) s.mm.mem r := by
  by_cases herr : addr % 4096 ≠ 0 ∨ length = 0
  · exact Or.inl ⟨-22, by rw [sysMunmap, if_pos herr]⟩
  · obtain ⟨ha, hl⟩ := not_or.mp herr
    by_cases hend : addr + pagesFor length * 4096 < 2 ^ 64
    · exact Or.inr (sysMunmap_run h (not_not.mp ha) hl hend)
    · -- the end wraps around, and the loop has no rounds
      refine Or.inl ⟨0, ?_⟩
      have hn : pagesFor length * 4096 < 2 ^ 64 := by
        simp only [pagesFor]
        omega
      have hstop : ¬ addr < (addr + pagesFor length * 4096) % 2 ^ 64 := by
        by_cases haddr : addr < 2 ^ 64
        · omega
        · have := Nat.mod_lt (addr + pagesFor length * 4096) (Nat.two_pow_pos 64)
          omega
      rw [sysMunmap, if_neg herr, vmUnmap, if_neg ha, unmapLoop, if_neg hstop]
      rfl

theorem munmap_inv (h : s.Inv root base) {addr length : ℕ} {s' : Places}
    (hstep : s.step root (.munmap addr length) = some s') :
    s'.Inv root base ∧ Keeps root base s (.munmap addr length) s' := by
  rw [Places.step] at hstep
  rcases sysMunmap_cases h.tables addr length with ⟨e, hrun⟩ | ⟨r, hrun, hspec⟩
  · rw [hrun] at hstep
    cases hstep
    exact ⟨⟨h.tables, fun y l hy => h.own y l (hy.imp_left And.left), fun y hy => h.there y hy.1⟩,
      fun y _ => Or.inr ⟨rfl, fun _ _ => rfl⟩⟩
  · rw [hrun] at hstep
    cases hstep
    have htab : ∀ f, IsTable r.1 root f ↔ IsTable s.mm.mem root f := by
      intro f
      constructor
      · rintro ⟨y, k, hy⟩
        exact ⟨y, k, (hspec.nodes y k).symm.trans hy⟩
      · rintro ⟨y, k, hy⟩
        exact ⟨y, k, (hspec.nodes y k).trans hy⟩
    refine ⟨⟨hspec.inv, fun y l hy hl => ?_, fun y hy => ?_⟩, fun y hy => ?_⟩
    · by_cases hgone : InRange addr (pagesFor length) y ∧
          (walk s.mm.mem root y).any Leaf.user = true
      · rw [show walk r.1 root y = none from hspec.gone y hgone.1 hgone.2] at hl
        cases hl
      · rw [show walk r.1 root y = _ from hspec.stay y hgone] at hl
        obtain ⟨h1, h2, h3⟩ := h.own y l (hy.imp_left And.left) hl
        exact ⟨h1, h2, fun ht => h3 ((htab _).mp ht)⟩
    · rw [show walk r.1 root y = _ from hspec.stay y fun hc => hy.2 ⟨rfl, hc.1⟩]
      exact h.there y hy.1
    · by_cases hin : InRange addr (pagesFor length) y
      · exact Or.inl hin
      · refine Or.inr ⟨hspec.stay y fun hc => hin hc.1, fun l hl => ?_⟩
        exact hspec.changed _ (h.own y l hy hl).2.2

theorem step_keeps (hbase : base % 4096 = 0) (h : s.Inv root base) {c : PlaceCall}
    (hok : Avoids root base s c) (hal : AllocatorSound root s c) {s' : Places}
    (hstep : s.step root c = some s') : s'.Inv root base ∧ Keeps root base s c s' := by
  cases c with
  | mmap pm addr length prot data => exact mmap_inv h hok hal hstep
  | munmap addr length => exact munmap_inv h hstep
  | brk pm brk => exact brk_inv hbase h hok hal hstep

end

/-! ## Whole runs -/

section

variable {pm₀ : ℕ → Option ℕ} {stub : Option ℕ} {m₀ m : PhysMem} {ctx : VmContext} {s₀ : VmSys}
  {calls : List MapCall}

/-- The task at its start: an address space, the break at the beginning of the heap. -/
def Places.start (m : PhysMem) (base cursor : ℕ) : Places := ⟨⟨m, base, cursor⟩, fun _ => False⟩

theorem start_inv (h : PageTables m ctx.pml4) (base cursor : ℕ) :
    (Places.start m base cursor).Inv ctx.pml4 base := by
  have hnone : ∀ p, ¬ (Places.start m base cursor).Belongs base p := by
    rintro p (hp | ⟨b, h1, h2, -⟩)
    · exact hp
    · exact absurd h2 (not_lt.mpr h1)
  exact ⟨h, fun y l hy => absurd hy (hnone _), fun y hy => absurd (Or.inl hy) (hnone (pageNo y))⟩

end

/-! ## A region in the way of the break -/

theorem used_first {f : ℕ} (h : Used firstMem 1 f) : f ≤ 6 := by
  rcases h with h | ⟨y, l, hl, hu, -⟩
  · obtain ⟨j, -, hj, hpage⟩ := created_first.1.fresh _ h
    have hpage' : j + 1 = f := Option.some.inj hpage
    have hcalls := created_first.2
    omega
  · rw [walk_first, kernelMap] at hl
    split_ifs at hl
    cases hl
    cases hu

def regionCall : PlaceCall := .mmap (pagesFrom 10) 0x4000001000 1 3 none

def brkCall : PlaceCall := .brk (pagesFrom 1000) 0x4000002000

theorem regionCall_sound : AllocatorSound 1 (.start firstMem 0x4000000000 mmapHintBase) regionCall := by
  refine ⟨supply_pagesFrom (by decide) fun k _ h => ?_, fun k h => ?_⟩
  · have := used_first h
    omega
  · exact absurd (Option.some.inj h) (Nat.succ_ne_zero _)

theorem regionCall_run : ∃ s, (Places.start firstMem 0x4000000000 mmapHintBase).step 1 regionCall = some s ∧
    s.mm.brk = 0x4000000000 ∧ s.live (pageNo 0x4000001000) ∧ PageTables s.mm.mem 1 ∧
    (∀ f, Used s.mm.mem 1 f → f < 20) ∧
    ∃ l, walk s.mm.mem 1 0x4000001000 = some l ∧ l.addr < 20 * 4096 := by
  have hfree : vmRangePresent firstMem 1 0x4000001000 (pagesFor 1) = false := by
    rw [vmRangePresent_eq_false]
    intro i hi
    obtain rfl : i = 0 := Nat.lt_one_iff.mp hi
    exact vmTranslate_first (by decide +kernel)
  obtain ⟨t, fs, calls, hrun, hbrk, hlen, hcalls, hfs⟩ := @sysMmap_of_free firstMem 1 1 3
    (pagesFrom 10) built_first.inv 0x4000000000 0x4000001000 mmapHintBase 0x4000001000 (if_pos (by decide))
    (by decide) (by decide) (by decide) (by decide) hfree (fresh_first (by decide)) fun k h => nomatch h
  have htook : ∀ f, Took (pagesFrom 10) 0 calls f → f < 20 := by
    rintro f ⟨k, -, hk, hpage⟩
    have hpage' : k + 10 = f := Option.some.inj hpage
    rw [show pagesFor 1 = 1 from rfl] at hcalls
    omega
  have hpages : ∀ y l, walk t.mem 1 y = some l → l.user = true → l.addr < 20 * 4096 := by
    intro y l hl hu
    rw [show walk t.mem 1 y = _ from hfs.walk y] at hl
    by_cases hin : InRange 0x4000001000 fs.length y
    · obtain ⟨f, hf, hmap⟩ := remapAll_of_inRange (w := walk firstMem 1) hin
      rw [hmap, mapped_addrBits] at hl
      · cases hl
        have := htook f (hfs.frames f hf).1
        show f * 4096 + y % 4096 < 20 * 4096
        omega
      · have := htook f (hfs.frames f hf).1
        omega
    · rw [remapAll_of_apart fun j hj heq => hin ⟨j, hj, heq⟩, walk_first, kernelMap] at hl
      split_ifs at hl
      cases hl
      cases hu
  have hin : InRange 0x4000001000 fs.length 0x4000001000 := ⟨0, by rw [hlen]; decide, rfl⟩
  obtain ⟨f, hf, hmap⟩ := remapAll_of_inRange (w := walk firstMem 1) hin
  have hwalk := (hfs.walk 0x4000001000).trans hmap
  have hstep : (Places.start firstMem 0x4000000000 mmapHintBase).step 1 regionCall = some ⟨t, fun p =>
      False ∨ (0 ≤ ((0x4000001000 : ℕ) : ℤ) ∧
        ∃ j < pagesFor 1, p = pageNo (((0x4000001000 : ℕ) : ℤ).toNat + j * 4096))⟩ := by
    rw [regionCall, Places.step]
    dsimp only [Places.start]
    rw [hrun]
  refine ⟨_, hstep, hbrk, Or.inr ⟨by decide, 0, by decide, rfl⟩, hfs.inv, ?_, _, hwalk, ?_⟩
  · rintro f' (ht | ⟨y, l, hl, hu, rfl⟩)
    · rcases hfs.tables f' ht with ht | ht
      · have := used_first (Or.inl ht)
        omega
      · exact htook f' ht
    · have := hpages y l hl hu
      omega
  · exact hpages _ _ hwalk (decide_eq_true (protFlags_bits 3).1)

end BananaOS.Vm
