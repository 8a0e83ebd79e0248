import BananaOS.Mm.PageAllocatorSafety

/-!
# The order in which pages are handed out

Which pages a sequence of `pmalloc` calls returns is decided by the state before the first of them:
the pages of the free cache come first, in the order of their slots, and then the other free pages
from the lowest one up.  `freeOrder` is that list, and `pmalloc` takes its head (`pmalloc_order`), as
long as `paddr_linear_ok` refuses no page.
-/

namespace BananaOS.Mm

open WordBitmap

/-! ## The list -/

def MmState.cachedFrom (s : MmState) : ℕ → ℕ → List ℕ
  | 0, _ => []
  | n + 1, ci =>
    if (s.hotFreeCache ci).valid then (s.hotFreeCache ci).page :: s.cachedFrom n (ci + 1)
    else s.cachedFrom n (ci + 1)

def MmState.cached (s : MmState) : List ℕ := s.cachedFrom hotCacheSlots 0

def MmState.uncached (s : MmState) : List ℕ :=
  (List.range hotZonePages).filter fun p => !s.hotBit p && !decide (p ∈ s.cached)

/-- **The pages in the order in which they will be handed out.** -/
def MmState.freeOrder (s : MmState) : List ℕ := s.cached ++ s.uncached

section

variable {s s' : MmState} {p : ℕ}

theorem mem_cachedFrom : ∀ {n ci : ℕ}, p ∈ s.cachedFrom n ci ↔
    ∃ cj, ci ≤ cj ∧ cj < ci + n ∧ (s.hotFreeCache cj).valid = true ∧
      (s.hotFreeCache cj).page = p := by
  intro n
  induction n with
  | zero =>
    intro ci
    refine iff_of_false (by simp [MmState.cachedFrom]) ?_
    rintro ⟨cj, h1, h2, -⟩
    omega
  | succ n ih =>
    intro ci
    rw [MmState.cachedFrom]
    constructor
    · intro h
      split_ifs at h with hv
      · rcases List.mem_cons.mp h with rfl | h
        · exact ⟨ci, le_refl _, by omega, hv, rfl⟩
        · obtain ⟨cj, h1, h2, h3⟩ := ih.mp h
          exact ⟨cj, by omega, by omega, h3⟩
      · obtain ⟨cj, h1, h2, h3⟩ := ih.mp h
        exact ⟨cj, by omega, by omega, h3⟩
    · rintro ⟨cj, h1, h2, hv, rfl⟩
      rcases Nat.eq_or_lt_of_le h1 with rfl | hlt
      · rw [if_pos hv]
        exact List.mem_cons_self
      · have hmem := ih.mpr ⟨cj, hlt, by omega, hv, rfl⟩
        split_ifs
        · exact List.mem_cons_of_mem _ hmem
        · exact hmem

theorem mem_cached : p ∈ s.cached ↔
    ∃ ci < hotCacheSlots, (s.hotFreeCache ci).valid = true ∧ (s.hotFreeCache ci).page = p := by
  rw [MmState.cached, mem_cachedFrom]
  constructor
  · rintro ⟨ci, -, h2, h3⟩
    exact ⟨ci, by omega, h3⟩
  · rintro ⟨ci, h2, h3⟩
    exact ⟨ci, Nat.zero_le _, by omega, h3⟩

theorem mem_freeOrder (hinv : HotInv s) : p ∈ s.freeOrder ↔ p < hotZonePages ∧ s.hotBit p = false := by
  rw [MmState.freeOrder, List.mem_append, MmState.uncached, List.mem_filter, List.mem_range,
    Bool.and_eq_true, Bool.not_eq_true', Bool.not_eq_true', decide_eq_false_iff_not]
  constructor
  · rintro (h | ⟨h1, h2, -⟩)
    · obtain ⟨ci, hci, hv, rfl⟩ := mem_cached.mp h
      exact ⟨hinv.page_lt ci hci hv, hinv.cached_clear ci hci hv⟩
    · exact ⟨h1, h2⟩
  · rintro ⟨h1, h2⟩
    by_cases h : p ∈ s.cached
    · exact .inl h
    · exact .inr ⟨h1, h2, h⟩

theorem nodup_cachedFrom (hinv : HotInv s) : ∀ {n ci : ℕ}, ci + n ≤ hotCacheSlots →
    (s.cachedFrom n ci).Nodup := by
  intro n
  induction n with
  | zero => exact fun _ => List.nodup_nil
  | succ n ih =>
    intro ci hle
    rw [MmState.cachedFrom]
    split_ifs with hv
    · refine List.nodup_cons.mpr ⟨fun h => ?_, ih (by omega)⟩
      -- two slots with the same page are one
      obtain ⟨cj, h1, h2, hv', he⟩ := mem_cachedFrom.mp h
      have := hinv.cached_inj cj (by omega) ci (by omega) hv' hv he
      omega
    · exact ih (by omega)

theorem nodup_freeOrder (hinv : HotInv s) : s.freeOrder.Nodup := by
  refine List.nodup_append.mpr ⟨nodup_cachedFrom hinv (by omega),
    List.nodup_range.filter _, fun p hp q hq he => ?_⟩
  rw [MmState.uncached, List.mem_filter, Bool.and_eq_true, Bool.not_eq_true',
    Bool.not_eq_true', decide_eq_false_iff_not] at hq
  exact hq.2.2 (he ▸ hp)

/-! ## One page -/

/-- **A page is handed out**: it was the first of the list, its bit is set and no other is changed.
-/
structure Popped (s : MmState) (p : ℕ) (s' : MmState) : Prop where
  order : s.freeOrder = p :: s'.freeOrder
  hotBit : ∀ q, s'.hotBit q = (decide (q = p) || s.hotBit q)
  warm : s'.warmBitmap = s.warmBitmap
  boomerang : s'.boomerangBitmap = s.boomerangBitmap

theorem cachedFrom_congr : ∀ {n ci : ℕ}, (∀ cj, ci ≤ cj → s'.hotFreeCache cj = s.hotFreeCache cj) →
    s'.cachedFrom n ci = s.cachedFrom n ci := by
  intro n
  induction n with
  | zero => exact fun _ => rfl
  | succ n ih =>
    intro ci h
    rw [MmState.cachedFrom, MmState.cachedFrom, h ci (le_refl _), ih fun cj hj => h cj (by omega)]

theorem cachedFrom_of_empty : ∀ {n ci : ℕ}, (∀ cj, ci ≤ cj → cj < ci + n →
    (s.hotFreeCache cj).valid = false) → ∀ m, s.cachedFrom (n + m) ci = s.cachedFrom m (ci + n) := by
  intro n
  induction n with
  | zero =>
    intro ci _ m
    rw [Nat.zero_add, Nat.add_zero]
  | succ n ih =>
    intro ci h m
    rw [show n + 1 + m = (n + m) + 1 by omega, MmState.cachedFrom,
      if_neg (by rw [h ci (le_refl _) (by omega)]; exact Bool.false_ne_true),
      ih (fun cj h1 h2 => h cj (by omega) (by omega)), show ci + 1 + n = ci + (n + 1) by omega]

theorem popped_takeCached (hinv : HotInv s) {ci : ℕ} (hci : ci < hotCacheSlots)
    (hempty : CacheEmptyBelow s ci) (hv : (s.hotFreeCache ci).valid = true) :
    Popped s (s.hotFreeCache ci).page
      ((s.dropSlot ci).occupy (s.hotFreeCache ci).group (s.hotFreeCache ci).bit) := by
  set s' := (s.dropSlot ci).occupy (s.hotFreeCache ci).group (s.hotFreeCache ci).bit with hs'
  have hbit : ∀ q, s'.hotBit q = (decide (q = (s.hotFreeCache ci).page) || s.hotBit q) :=
    fun q => hotBit_occupy (s.dropSlot ci) (hinv.bit_lt ci hci hv) q
  have hslot : ∀ cj, cj ≠ ci → s'.hotFreeCache cj = s.hotFreeCache cj :=
    fun cj hj => Function.update_of_ne hj _ _
  have hgone : (s'.hotFreeCache ci).valid = false :=
    congrArg HotCacheEntry.valid (Function.update_self ci _ s.hotFreeCache)
  obtain ⟨m, hm⟩ : ∃ m, hotCacheSlots = ci + (m + 1) := ⟨hotCacheSlots - ci - 1, by omega⟩
  -- before, the slot is the first that counts; after, it does not count either
  have hbefore : s.cached = (s.hotFreeCache ci).page :: s.cachedFrom m (ci + 1) := by
    rw [MmState.cached, hm, cachedFrom_of_empty (fun cj _ h => hempty cj (by omega)),
      Nat.zero_add, MmState.cachedFrom, if_pos hv]
  have hafter : s'.cached = s.cachedFrom m (ci + 1) := by
    rw [MmState.cached, hm, cachedFrom_of_empty (fun cj _ h => ?_), Nat.zero_add,
      MmState.cachedFrom, if_neg (by rw [hgone]; exact Bool.false_ne_true)]
    · exact cachedFrom_congr fun cj hj => hslot cj (by omega)
    · rw [hslot cj (by omega)]
      exact hempty cj (by omega)
  have hcached : s.cached = (s.hotFreeCache ci).page :: s'.cached := by rw [hbefore, hafter]
  refine ⟨?_, hbit, rfl, rfl⟩
  rw [MmState.freeOrder, MmState.freeOrder, hcached, List.cons_append]
  refine congrArg _ (congrArg _ (List.filter_congr fun q _ => ?_))
  rw [hbit, hcached]
  by_cases hq : q = (s.hotFreeCache ci).page <;> simp [hq]

theorem filter_range_eq_cons {n p : ℕ} {f : ℕ → Bool} (hp : p < n) (hfp : f p = true)
    (hfirst : ∀ q < p, f q = false) :
    (List.range n).filter f = p :: (List.range n).filter fun q => !decide (q = p) && f q := by
  obtain ⟨k, rfl⟩ : ∃ k, n = p + (k + 1) := ⟨n - p - 1, by omega⟩
  have hrange : List.range (p + (k + 1)) =
      List.range p ++ p :: (List.range k).map fun j => p + 1 + j := by
    rw [List.range_add, List.range_succ_eq_map, List.map_cons, Nat.add_zero, List.map_map]
    refine congrArg _ (congrArg _ (List.map_congr_left fun j _ => ?_))
    simp only [Function.comp_apply, Nat.succ_eq_add_one]
    omega
  have hlow : (List.range p).filter f = [] :=
    List.filter_eq_nil_iff.mpr fun q hq => by simp [hfirst q (List.mem_range.mp hq)]
  have hlow' : ((List.range p).filter fun q => !decide (q = p) && f q) = [] :=
    List.filter_eq_nil_iff.mpr fun q hq => by simp [hfirst q (List.mem_range.mp hq)]
  have hhigh : ((List.range k).map fun j => p + 1 + j).filter (fun q => !decide (q = p) && f q) =
      ((List.range k).map fun j => p + 1 + j).filter f := by
    refine List.filter_congr fun q hq => ?_
    obtain ⟨j, -, rfl⟩ := List.mem_map.mp hq
    rw [decide_eq_false (by omega)]
    rfl
  rw [hrange, List.filter_append, List.filter_append, hlow, hlow', List.nil_append, List.nil_append,
    List.filter_cons_of_pos hfp, List.filter_cons_of_neg (by simp), hhigh]

theorem popped_occupy (hempty : CacheEmptyBelow s hotCacheSlots) {g bit : ℕ} (hbit : bit < 64)
    (hlt : g * 64 + bit < hotZonePages) (hclear : s.hotBit (g * 64 + bit) = false)
    (hfirst : ∀ q < g * 64 + bit, s.hotBit q = true) :
    Popped s (g * 64 + bit) (s.occupy g bit) := by
  have hb := hotBit_occupy s (g := g) hbit
  have hnil : ∀ t : MmState, t.hotFreeCache = s.hotFreeCache → t.cached = [] := by
    intro t ht
    refine List.eq_nil_iff_forall_not_mem.mpr fun p hp => ?_
    obtain ⟨ci, hci, hv, -⟩ := mem_cached.mp hp
    rw [ht, hempty ci hci] at hv
    cases hv
  refine ⟨?_, hb, rfl, rfl⟩
  rw [MmState.freeOrder, MmState.freeOrder, MmState.uncached, MmState.uncached, hnil s rfl,
    hnil (s.occupy g bit) rfl, List.nil_append, List.nil_append]
  rw [filter_range_eq_cons hlt (by simp [hclear]) fun q hq => by simp [hfirst q hq]]
  refine congrArg _ (List.filter_congr fun q _ => ?_)
  rw [hb]
  by_cases hq : q = g * 64 + bit <;> simp [hq]

/-! ## The two loops, when no page is refused -/

def accepts : ℕ → ℕ → Bool := fun _ _ => true

theorem pmallocCached_order (hinv : HotInv s) : ∀ {n ci : ℕ}, ci + n = hotCacheSlots →
    CacheEmptyBelow s ci → ∀ q, (∃ p s' q', pmallocCached accepts n ci q s = (some (hotAddr p), q', s') ∧
      Popped s p s') ∨
      (pmallocCached accepts n ci q s = (none, q, s) ∧ CacheEmptyBelow s hotCacheSlots) := by
  intro n
  induction n with
  | zero =>
    intro ci hci hempty q
    rw [Nat.add_zero] at hci
    exact .inr ⟨rfl, hci ▸ hempty⟩
  | succ n ih =>
    intro ci hci hempty q
    rw [pmallocCached]
    by_cases hv : (s.hotFreeCache ci).valid = true
    · rw [if_pos hv]
      exact .inl ⟨_, _, _, rfl, popped_takeCached hinv (by omega) hempty hv⟩
    · rw [if_neg hv]
      exact ih (by omega) (cacheEmptyBelow_succ hempty (by simpa using hv)) q

theorem hotBit_of_full {g : ℕ} (h : s.hotBitmap g = BitVec.allOnes 64) {q : ℕ} (h1 : g * 64 ≤ q)
    (h2 : q < (g + 1) * 64) : s.hotBit q = true := by
  rw [MmState.hotBit, WordBitmap.get, show q / 64 = g by omega, h, BitVec.getLsbD_allOnes]
  exact decide_eq_true (Nat.mod_lt _ (by decide))

theorem hotBit_below_ctz {g : ℕ} {q : ℕ} (h1 : g * 64 ≤ q)
    (h2 : q < g * 64 + ctz (~~~(s.hotBitmap g))) (h : ctz (~~~(s.hotBitmap g)) < 64) :
    s.hotBit q = true := by
  have hk : q - g * 64 < ctz (~~~(s.hotBitmap g)) := by omega
  have hnot := List.not_of_lt_findIdx hk
  rw [List.getElem_range, BitVec.getLsbD_not, decide_eq_true (by omega), Bool.true_and] at hnot
  rw [MmState.hotBit, WordBitmap.get, show q / 64 = g by omega, show q % 64 = q - g * 64 by omega]
  simpa using hnot

theorem pmallocScan_order (hempty : CacheEmptyBelow s hotCacheSlots) :
    ∀ {n g : ℕ}, g + n = numPageGroups → (∀ q < g * 64, s.hotBit q = true) → ∀ q,
      (∃ p s', pmallocScan accepts n g q s = (some (hotAddr p), s') ∧ Popped s p s') ∨
      (pmallocScan accepts n g q s = (none, s) ∧ ∀ p < hotZonePages, s.hotBit p = true) := by
  intro n
  induction n with
  | zero =>
    intro g hg hfull q
    refine .inr ⟨rfl, fun p hp => hfull p ?_⟩
    unfold numPageGroups hotZonePages at hg
    unfold hotZonePages at hp
    omega
  | succ n ih =>
    intro g hg hfull q
    rw [pmallocScan]
    by_cases hall : s.hotBitmap g = BitVec.allOnes 64
    · rw [if_pos hall]
      refine ih (by omega) (fun p hp => ?_) q
      by_cases hlt : p < g * 64
      · exact hfull p hlt
      · exact hotBit_of_full hall (not_lt.mp hlt) hp
    · rw [if_neg hall]
      obtain ⟨hbit, hclear⟩ := lowestClear hall
      have hlt : g * 64 + ctz (~~~(s.hotBitmap g)) < hotZonePages := by
        unfold numPageGroups hotZonePages at hg
        unfold hotZonePages
        omega
      refine .inl ⟨_, _, rfl, popped_occupy hempty hbit hlt hclear fun p hp => ?_⟩
      by_cases hp' : p < g * 64
      · exact hfull p hp'
      · exact hotBit_below_ctz (not_lt.mp hp') hp hbit

theorem pmalloc_order (hinv : HotInv s) :
    (∃ p s', pmalloc accepts s = (some (hotAddr p), s') ∧ HotInv s' ∧ Popped s p s') ∨
      (pmalloc accepts s = (none, s) ∧ s.freeOrder = []) := by
  have hspec := pmalloc_spec accepts hinv
  rcases pmallocCached_order hinv (Nat.zero_add _) (fun ci hci => absurd hci (Nat.not_lt_zero ci)) 0
    with ⟨p, s', q', hrun, hpop⟩ | ⟨hrun, hempty⟩
  · have he : pmalloc accepts s = (some (hotAddr p), s') := by simp only [pmalloc, hrun]
    rw [he] at hspec
    exact .inl ⟨p, s', he, hspec.inv, hpop⟩
  · have he : pmalloc accepts s = pmallocScan accepts numPageGroups 0 0 s := by
      simp only [pmalloc, hrun]
    rw [he] at hspec ⊢
    rcases pmallocScan_order hempty (Nat.zero_add _) (fun q hq => absurd hq (by omega)) 0 with
      ⟨p, s', hscan, hpop⟩ | ⟨hscan, hfull⟩
    · rw [hscan] at hspec
      exact .inl ⟨p, s', hscan, hspec.inv, hpop⟩
    · refine .inr ⟨hscan, List.eq_nil_iff_forall_not_mem.mpr fun p hp => ?_⟩
      obtain ⟨hlt, hclear⟩ := (mem_freeOrder hinv).mp hp
      rw [hfull p hlt] at hclear
      cases hclear

end

end BananaOS.Mm
