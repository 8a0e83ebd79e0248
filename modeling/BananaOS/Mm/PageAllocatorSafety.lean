import BananaOS.Mm.PageAllocator

/-!
# No page is handed out twice

The allocator is safe because bitmap, cache and counter never disagree:
-/

namespace BananaOS.Mm

open Function WordBitmap

/-! ## The invariant -/

def MmState.hotBit (s : MmState) (p : ℕ) : Bool := s.hotBitmap.get p

def HotCacheEntry.page (e : HotCacheEntry) : ℕ := e.group * 64 + e.bit

structure CacheInv (s : MmState) : Prop where
  bit_lt : ∀ ci < hotCacheSlots, (s.hotFreeCache ci).valid = true → (s.hotFreeCache ci).bit < 64
  page_lt : ∀ ci < hotCacheSlots, (s.hotFreeCache ci).valid = true →
    (s.hotFreeCache ci).page < hotZonePages
  cached_clear : ∀ ci < hotCacheSlots, (s.hotFreeCache ci).valid = true →
    s.hotBit (s.hotFreeCache ci).page = false
  cached_inj : ∀ ci < hotCacheSlots, ∀ cj < hotCacheSlots, (s.hotFreeCache ci).valid = true →
    (s.hotFreeCache cj).valid = true → (s.hotFreeCache ci).page = (s.hotFreeCache cj).page →
    ci = cj

/-- Bitmap, cache and counter agree.  The counter stands apart because a contiguous allocation sets
its bits one by one and counts them at the end. -/
structure HotInv (s : MmState) : Prop extends CacheInv s where
  used_eq : s.hotUsed = s.hotBitmap.popcount hotZonePages

def CacheEmptyBelow (s : MmState) (n : ℕ) : Prop :=
  ∀ ci < n, (s.hotFreeCache ci).valid = false

def Grows (s s' : MmState) : Prop :=
  ∀ p, s.hotBit p = true → s'.hotBit p = true

variable {s s' : MmState} {p g bit ci : ℕ}

theorem Grows.trans {s'' : MmState} (h : Grows s s') (h' : Grows s' s'') : Grows s s'' :=
  fun p hp => h' p (h p hp)

theorem Grows.clear_before (h : Grows s s') (hp : s'.hotBit p = false) : s.hotBit p = false := by
  by_contra hb
  have := h p (by simpa using hb)
  rw [hp] at this
  exact Bool.noConfusion this

/-- What a successful allocation of the page at `a` does: the page lies in the hot zone, was clear
before, is set after, and nothing was cleared. -/
structure Fresh (s s' : MmState) (p : ℕ) : Prop where
  lt : p < hotZonePages
  was_clear : s.hotBit p = false
  now_set : s'.hotBit p = true
  grows : Grows s s'

theorem incr64_used (h : s.hotUsed = s.hotBitmap.popcount hotZonePages) :
    incr64 s.hotUsed = s.hotBitmap.popcount hotZonePages + 1 := by
  have hle := popcount_le s.hotBitmap hotZonePages
  rw [← h] at hle ⊢
  unfold incr64
  have hlt : s.hotUsed + 1 < 2 ^ 64 := by
    unfold hotZonePages at hle
    omega
  exact Nat.mod_eq_of_lt hlt

/-! ## Occupying a page -/

theorem hotBit_occupy (s : MmState) (hbit : bit < 64) (p : ℕ) :
    (s.occupy g bit).hotBit p = (decide (p = g * 64 + bit) || s.hotBit p) := by
  unfold MmState.occupy MmState.hotBit
  rw [setAt_eq_set _ hbit, get_set (by decide)]

theorem grows_occupy (s : MmState) (hbit : bit < 64) : Grows s (s.occupy g bit) := by
  intro p hp
  rw [hotBit_occupy s hbit, hp, Bool.or_true]

theorem used_occupy (h : s.hotUsed = s.hotBitmap.popcount hotZonePages)
    (hbit : bit < 64) (hlt : g * 64 + bit < hotZonePages) (hclear : s.hotBit (g * 64 + bit) = false) :
    (s.occupy g bit).hotUsed = (s.occupy g bit).hotBitmap.popcount hotZonePages := by
  show incr64 s.hotUsed = (s.hotBitmap.setAt g bit).popcount hotZonePages
  rw [setAt_eq_set _ hbit, popcount_set (by decide) _ hlt hclear, incr64_used h]

theorem HotInv.occupy (h : HotInv s) (hbit : bit < 64)
    (hlt : g * 64 + bit < hotZonePages) (hclear : s.hotBit (g * 64 + bit) = false)
    (hno : ∀ ci < hotCacheSlots, (s.hotFreeCache ci).valid = true →
      (s.hotFreeCache ci).page ≠ g * 64 + bit) :
    HotInv (s.occupy g bit) where
  bit_lt := h.bit_lt
  page_lt := h.page_lt
  cached_clear := by
    intro ci hci hv
    show (s.occupy g bit).hotBit (s.hotFreeCache ci).page = false
    rw [hotBit_occupy s hbit, h.cached_clear ci hci hv, decide_eq_false (hno ci hci hv)]
    rfl
  cached_inj := h.cached_inj
  used_eq := used_occupy h.used_eq hbit hlt hclear

/-! ## The cache loop -/

theorem valid_dropSlot {cj : ℕ} (h : ((s.dropSlot ci).hotFreeCache cj).valid = true) :
    cj ≠ ci ∧ (s.dropSlot ci).hotFreeCache cj = s.hotFreeCache cj := by
  unfold MmState.dropSlot at h ⊢
  by_cases hc : cj = ci
  · subst hc
    simp at h
  · exact ⟨hc, update_of_ne hc _ _⟩

theorem HotInv.dropSlot (h : HotInv s) (ci : ℕ) : HotInv (s.dropSlot ci) where
  bit_lt := by
    intro cj hcj hv
    have he := (valid_dropSlot hv).2
    rw [he] at hv ⊢
    exact h.bit_lt cj hcj hv
  page_lt := by
    intro cj hcj hv
    have he := (valid_dropSlot hv).2
    rw [he] at hv ⊢
    exact h.page_lt cj hcj hv
  cached_clear := by
    intro cj hcj hv
    have he := (valid_dropSlot hv).2
    rw [he] at hv ⊢
    exact h.cached_clear cj hcj hv
  cached_inj := by
    intro cj hcj ck hck hvj hvk hp
    have hej := (valid_dropSlot hvj).2
    have hek := (valid_dropSlot hvk).2
    rw [hej] at hvj hp
    rw [hek] at hvk hp
    exact h.cached_inj cj hcj ck hck hvj hvk hp
  used_eq := h.used_eq

theorem HotInv.takeCached (h : HotInv s) (hci : ci < hotCacheSlots)
    (hv : (s.hotFreeCache ci).valid = true) :
    HotInv ((s.dropSlot ci).occupy (s.hotFreeCache ci).group (s.hotFreeCache ci).bit) := by
  refine (h.dropSlot ci).occupy (h.bit_lt ci hci hv) (h.page_lt ci hci hv)
    (h.cached_clear ci hci hv) ?_
  intro cj hcj hvj hp
  obtain ⟨hne, he⟩ := valid_dropSlot hvj
  rw [he] at hvj hp
  exact hne (h.cached_inj cj hcj ci hci hvj hv hp)

theorem cacheEmptyBelow_succ (h : CacheEmptyBelow s ci)
    (hci : (s.hotFreeCache ci).valid = false) : CacheEmptyBelow s (ci + 1) := by
  intro cj hcj
  rcases Nat.lt_succ_iff_lt_or_eq.mp hcj with hlt | rfl
  · exact h cj hlt
  · exact hci

/-- What the cache loop does from slot `ci` on: it returns a page that was clear, or it leaves the
whole cache empty. -/
structure CachedOutcome (s : MmState) (r : Option ℕ × ℕ × MmState) : Prop where
  inv : HotInv r.2.2
  grows : Grows s r.2.2
  found : ∀ a, r.1 = some a → ∃ p, a = hotAddr p ∧ Fresh s r.2.2 p
  emptied : r.1 = none → CacheEmptyBelow r.2.2 hotCacheSlots

theorem CachedOutcome.of_grows {r : Option ℕ × ℕ × MmState} (hg : Grows s s')
    (h : CachedOutcome s' r) : CachedOutcome s r where
  inv := h.inv
  grows := hg.trans h.grows
  found := by
    intro a ha
    obtain ⟨p, hp, hf⟩ := h.found a ha
    exact ⟨p, hp, hf.lt, hg.clear_before hf.was_clear, hf.now_set, hg.trans hf.grows⟩
  emptied := h.emptied

theorem pmallocCached_spec (ans : ℕ → ℕ → Bool) :
    ∀ (n ci q : ℕ) (s : MmState), ci + n = hotCacheSlots → HotInv s → CacheEmptyBelow s ci →
      CachedOutcome s (pmallocCached ans n ci q s) := by
  intro n
  induction n with
  | zero =>
    intro ci q s hci hinv hempty
    refine ⟨hinv, fun _ hp => hp, (fun a ha => nomatch ha), fun _ => ?_⟩
    rw [Nat.add_zero] at hci
    rwa [hci] at hempty
  | succ n ih =>
    intro ci q s hci hinv hempty
    have hlt : ci < hotCacheSlots := by omega
    unfold pmallocCached
    by_cases hv : (s.hotFreeCache ci).valid = true
    · -- a valid slot: its page is taken whether or not it can be returned
      rw [if_pos hv]
      have hinv' := hinv.takeCached hlt hv
      have hbit := hinv.bit_lt ci hlt hv
      set s' := (s.dropSlot ci).occupy (s.hotFreeCache ci).group (s.hotFreeCache ci).bit with hs'
      have hgrow : Grows s s' := grows_occupy (s.dropSlot ci) hbit
      by_cases ha : ans q (heapBase + ((s.hotFreeCache ci).group * 64 +
          (s.hotFreeCache ci).bit) * pageSize) = true
      · simp only [ha, if_true]
        refine ⟨hinv', hgrow, ?_, fun h => nomatch h⟩
        intro a hsome
        refine ⟨(s.hotFreeCache ci).page, (Option.some.inj hsome).symm, hinv.page_lt ci hlt hv,
          hinv.cached_clear ci hlt hv, ?_, hgrow⟩
        rw [hs', hotBit_occupy _ hbit]
        simp [HotCacheEntry.page]
      · simp only [ha]
        refine CachedOutcome.of_grows hgrow (ih (ci + 1) (q + 1) s' (by omega) hinv' ?_)
        -- the slot just read is the only one below `ci + 1` that was valid
        refine cacheEmptyBelow_succ ?_ (by simp [hs', MmState.occupy, MmState.dropSlot])
        intro cj hcj
        have hne : cj ≠ ci := by omega
        simpa [hs', MmState.occupy, MmState.dropSlot, hne] using hempty cj hcj
    · rw [if_neg hv]
      exact ih (ci + 1) q s (by omega) hinv (cacheEmptyBelow_succ hempty (by simpa using hv))

/-! ## The bitmap loop -/

theorem lowestClear {m : WordBitmap 64} (h : m g ≠ BitVec.allOnes 64) :
    ctz (~~~(m g)) < 64 ∧ m.get (g * 64 + ctz (~~~(m g))) = false := by
  have hne : ~~~(m g) ≠ 0#64 := by
    intro h0
    apply h
    rw [← BitVec.not_not (b := m g), h0]
    rfl
  have hlt := ctz_lt hne
  refine ⟨hlt, ?_⟩
  have hbit := getLsbD_ctz hne
  rw [BitVec.getLsbD_not, Bool.and_eq_true, Bool.not_eq_true'] at hbit
  rw [get_mul_add m hlt]
  exact hbit.2

structure PmallocOutcome (s : MmState) (r : Option ℕ × MmState) : Prop where
  inv : HotInv r.2
  grows : Grows s r.2
  found : ∀ a, r.1 = some a → ∃ p, a = hotAddr p ∧ Fresh s r.2 p

theorem PmallocOutcome.of_grows {r : Option ℕ × MmState} (hg : Grows s s')
    (h : PmallocOutcome s' r) : PmallocOutcome s r where
  inv := h.inv
  grows := hg.trans h.grows
  found := by
    intro a ha
    obtain ⟨p, hp, hf⟩ := h.found a ha
    exact ⟨p, hp, hf.lt, hg.clear_before hf.was_clear, hf.now_set, hg.trans hf.grows⟩

theorem pmallocScan_spec (ans : ℕ → ℕ → Bool) :
    ∀ (n g q : ℕ) (s : MmState), g + n = numPageGroups → HotInv s →
      CacheEmptyBelow s hotCacheSlots → PmallocOutcome s (pmallocScan ans n g q s) := by
  intro n
  induction n with
  | zero =>
    intro g q s _ hinv _
    exact ⟨hinv, fun _ hp => hp, fun a ha => nomatch ha⟩
  | succ n ih =>
    intro g q s hg hinv hempty
    unfold pmallocScan
    by_cases hfull : s.hotBitmap g = BitVec.allOnes 64
    · rw [if_pos hfull]
      exact ih (g + 1) q s (by omega) hinv hempty
    · rw [if_neg hfull]
      obtain ⟨hbit, hclear⟩ := lowestClear hfull
      set bit := ctz (~~~(s.hotBitmap g)) with hbitdef
      have hlt : g * 64 + bit < hotZonePages := by
        unfold numPageGroups hotZonePages at hg
        unfold hotZonePages
        omega
      have hinv' : HotInv (s.occupy g bit) := by
        refine hinv.occupy hbit hlt hclear fun ci hci hv => ?_
        rw [hempty ci hci] at hv
        exact Bool.noConfusion hv
      have hgrow := grows_occupy s (g := g) hbit
      by_cases ha : ans q (heapBase + (g * 64 + bit) * pageSize) = true
      · simp only [ha, if_true]
        refine ⟨hinv', hgrow, fun a hsome => ?_⟩
        refine ⟨g * 64 + bit, (Option.some.inj hsome).symm, hlt, hclear, ?_, hgrow⟩
        rw [hotBit_occupy s hbit]
        simp
      · simp only [ha]
        exact PmallocOutcome.of_grows hgrow (ih (g + 1) (q + 1) _ (by omega) hinv' hempty)

theorem pmalloc_spec (ans : ℕ → ℕ → Bool) (hinv : HotInv s) : PmallocOutcome s (pmalloc ans s) := by
  have hc := pmallocCached_spec ans hotCacheSlots 0 0 s (Nat.zero_add _) hinv
    (fun ci hci => absurd hci (Nat.not_lt_zero ci))
  unfold pmalloc
  rcases hr : pmallocCached ans hotCacheSlots 0 0 s with ⟨_ | a, q, s'⟩
  · rw [hr] at hc
    exact PmallocOutcome.of_grows hc.grows
      (pmallocScan_spec ans numPageGroups 0 q s' (Nat.zero_add _) hc.inv (hc.emptied rfl))
  · rw [hr] at hc
    exact ⟨hc.inv, hc.grows, hc.found⟩

/-! ## Runs of pages -/

theorem contigFree_clear {ans : ℕ → ℕ → Bool} :
    ∀ {n idx q : ℕ}, (contigFree ans s n idx q).1 = true →
      ∀ i < n, s.hotBit (idx + i) = false := by
  intro n
  induction n with
  | zero => exact fun _ i hi => absurd hi (Nat.not_lt_zero i)
  | succ n ih =>
    intro idx q h i hi
    unfold contigFree at h
    by_cases hbit : s.hotBitmap.get idx = true
    · simp [hbit] at h
    · by_cases ha : ans q (heapBase + idx * pageSize) = true
      · simp only [hbit, ha, if_true] at h
        rcases Nat.eq_zero_or_pos i with rfl | hpos
        · simpa [MmState.hotBit] using hbit
        · have := ih h (i - 1) (by omega)
          rwa [show idx + 1 + (i - 1) = idx + i by omega] at this
      · simp [hbit, ha] at h

def MmState.takePage (s : MmState) (idx : ℕ) : MmState :=
  ({ s with hotBitmap := s.hotBitmap.setAt (idx / 64) (idx % 64) } : MmState).dropPage idx

theorem hotBit_takePage (s : MmState) (idx p : ℕ) :
    (s.takePage idx).hotBit p = (decide (p = idx) || s.hotBit p) :=
  get_set (by decide) s.hotBitmap idx p

theorem valid_takePage {idx : ℕ} (hci : ci < hotCacheSlots)
    (h : ((s.takePage idx).hotFreeCache ci).valid = true) :
    (s.takePage idx).hotFreeCache ci = s.hotFreeCache ci ∧
      ¬((s.hotFreeCache ci).group = idx / 64 % 2 ^ 16 ∧
        (s.hotFreeCache ci).bit = idx % 64 % 2 ^ 16) := by
  unfold MmState.takePage MmState.dropPage at h ⊢
  simp only at h ⊢
  split at h
  next _ => exact absurd h (by simp)
  next hno =>
    rw [if_neg hno]
    refine ⟨rfl, fun hgb => hno ⟨hci, h, hgb⟩⟩

theorem CacheInv.takePage (h : CacheInv s) {idx : ℕ} (hidx : idx < hotZonePages) :
    CacheInv (s.takePage idx) where
  bit_lt := by
    intro ci hci hv
    have he := (valid_takePage hci hv).1
    rw [he] at hv ⊢
    exact h.bit_lt ci hci hv
  page_lt := by
    intro ci hci hv
    have he := (valid_takePage hci hv).1
    rw [he] at hv ⊢
    exact h.page_lt ci hci hv
  cached_clear := by
    intro ci hci hv
    obtain ⟨he, hno⟩ := valid_takePage hci hv
    rw [he] at hv ⊢
    have hb := h.bit_lt ci hci hv
    -- the entry that names `idx` was dropped, so this one names another page
    have hne : (s.hotFreeCache ci).page ≠ idx := by
      intro hp
      unfold HotCacheEntry.page at hp
      unfold hotZonePages at hidx
      exact hno ⟨by omega, by omega⟩
    rw [hotBit_takePage, h.cached_clear ci hci hv, decide_eq_false hne]
    rfl
  cached_inj := by
    intro ci hci cj hcj hvi hvj hp
    have hei := (valid_takePage hci hvi).1
    have hej := (valid_takePage hcj hvj).1
    rw [hei] at hvi hp
    rw [hej] at hvj hp
    exact h.cached_inj ci hci cj hcj hvi hvj hp

structure TakeOutcome (s s' : MmState) (idx n : ℕ) : Prop where
  inv : CacheInv s'
  grows : Grows s s'
  taken : ∀ i < n, s'.hotBit (idx + i) = true
  popcount_eq : s'.hotBitmap.popcount hotZonePages = s.hotBitmap.popcount hotZonePages + n
  used_eq : s'.hotUsed = s.hotUsed

theorem contigTake_spec :
    ∀ {n idx : ℕ} {s : MmState}, CacheInv s → idx + n ≤ hotZonePages →
      (∀ i < n, s.hotBit (idx + i) = false) → TakeOutcome s (contigTake n idx s) idx n := by
  intro n
  induction n with
  | zero =>
    intro idx s hinv _ _
    exact ⟨hinv, fun _ hp => hp, fun i hi => absurd hi (Nat.not_lt_zero i),
      (Nat.add_zero _).symm, rfl⟩
  | succ n ih =>
    intro idx s hinv hle hclear
    have hidx : idx < hotZonePages := by omega
    have h0 : s.hotBit idx = false := by simpa using hclear 0 (by omega)
    have hstep : TakeOutcome (s.takePage idx) (contigTake n (idx + 1) (s.takePage idx))
        (idx + 1) n := by
      refine ih (hinv.takePage hidx) (by omega) fun i hi => ?_
      rw [hotBit_takePage, show idx + 1 + i = idx + (i + 1) by omega, hclear (i + 1) (by omega)]
      simp
    have hgrow : Grows s (s.takePage idx) := fun p hp => by rw [hotBit_takePage, hp, Bool.or_true]
    refine ⟨hstep.inv, hgrow.trans hstep.grows, fun i hi => ?_, ?_, hstep.used_eq⟩
    · rcases Nat.eq_zero_or_pos i with rfl | hpos
      · refine hstep.grows _ ?_
        rw [hotBit_takePage]
        simp
      · have := hstep.taken (i - 1) (by omega)
        rwa [show idx + 1 + (i - 1) = idx + i by omega] at this
    · have hset : (s.takePage idx).hotBitmap.popcount hotZonePages =
          s.hotBitmap.popcount hotZonePages + 1 := popcount_set (by decide) s.hotBitmap hidx h0
      show (contigTake n (idx + 1) (s.takePage idx)).hotBitmap.popcount hotZonePages = _
      rw [hstep.popcount_eq, hset]
      omega

structure ContigOutcome (s : MmState) (n : ℕ) (r : Option ℕ × MmState) : Prop where
  inv : HotInv r.2
  grows : Grows s r.2
  found : ∀ a, r.1 = some a → ∃ p, a = hotAddr p ∧ ∀ i < n, Fresh s r.2 (p + i)

theorem contigScan_spec (ans : ℕ → ℕ → Bool) (pages : ℕ) (hinv : HotInv s) :
    ∀ n base q : ℕ, ContigOutcome s pages (contigScan ans pages n base q s) := by
  intro n
  induction n with
  | zero =>
    intro base q
    exact ⟨hinv, fun _ hp => hp, fun a ha => nomatch ha⟩
  | succ n ih =>
    intro base q
    unfold contigScan
    by_cases hle : base + pages ≤ hotZonePages
    · rw [if_pos hle]
      rcases hf : contigFree ans s pages base q with ⟨_ | _, q'⟩
      · exact ih (base + 64) q'
      · have hclear := contigFree_clear (q := q) (show _ = true by rw [hf])
        have ht := contigTake_spec hinv.toCacheInv hle hclear
        refine ⟨⟨⟨ht.inv.bit_lt, ht.inv.page_lt, ht.inv.cached_clear, ht.inv.cached_inj⟩, ?_⟩,
          ht.grows, fun a ha => ?_⟩
        · -- the counter catches up with the bits
          show ((contigTake pages base s).hotUsed + pages) % 2 ^ 64 =
            (contigTake pages base s).hotBitmap.popcount hotZonePages
          have hb := popcount_le (contigTake pages base s).hotBitmap hotZonePages
          rw [ht.popcount_eq, ← hinv.used_eq] at hb ⊢
          rw [ht.used_eq]
          unfold hotZonePages at hb
          exact Nat.mod_eq_of_lt (by omega)
        · refine ⟨base, (Option.some.inj ha).symm, fun i hi => ?_⟩
          exact ⟨by omega, hclear i hi, ht.taken i hi, ht.grows⟩
    · rw [if_neg hle]
      exact ⟨hinv, fun _ hp => hp, fun a ha => nomatch ha⟩

theorem PmallocOutcome.toContig {r : Option ℕ × MmState} (h : PmallocOutcome s r) :
    ContigOutcome s 1 r := by
  refine ⟨h.inv, h.grows, fun a ha => ?_⟩
  obtain ⟨p, hp, hf⟩ := h.found a ha
  refine ⟨p, hp, fun i hi => ?_⟩
  have hi0 : i = 0 := by omega
  rwa [hi0, Nat.add_zero]

theorem pmallocContig_spec (ans : ℕ → ℕ → Bool) {pages : ℕ} (hpages : 1 ≤ pages)
    (hinv : HotInv s) : ContigOutcome s pages (pmallocContig ans pages s) := by
  unfold pmallocContig
  split
  next h1 =>
    have hp1 : pages = 1 := by omega
    rw [hp1]
    exact (pmalloc_spec ans hinv).toContig
  next _ => exact contigScan_spec ans pages hinv _ _ _

/-! ## Release -/

theorem HotInv.remember (h : HotInv s) (hp : p < hotZonePages) (hclear : s.hotBit p = false)
    (hno : ∀ ci < hotCacheSlots, (s.hotFreeCache ci).valid = true →
      (s.hotFreeCache ci).page ≠ p) :
    HotInv (s.remember (p / 64) (p % 64)) := by
  unfold MmState.remember
  rcases hslot : firstEmptySlot s.hotFreeCache hotCacheSlots 0 with _ | c
  · exact h
  · have hg : p / 64 % 2 ^ 16 = p / 64 := by
      unfold hotZonePages at hp
      omega
    have hb : p % 64 % 2 ^ 16 = p % 64 := by omega
    rw [hg, hb]
    have hpage : (⟨p / 64, p % 64, true⟩ : HotCacheEntry).page = p := by
      show p / 64 * 64 + p % 64 = p
      omega
    -- slot by slot: the new entry, or an entry that was there before
    have hcase : ∀ ci, update s.hotFreeCache c ⟨p / 64, p % 64, true⟩ ci =
        if ci = c then ⟨p / 64, p % 64, true⟩ else s.hotFreeCache ci :=
      fun ci => update_apply _ _ _ ci
    refine ⟨⟨?_, ?_, ?_, ?_⟩, h.used_eq⟩
    · intro ci hci hv
      simp only [hcase] at hv ⊢
      split at hv
      next hc => rw [if_pos hc]; exact Nat.mod_lt _ (by decide)
      next hc => rw [if_neg hc]; exact h.bit_lt ci hci hv
    · intro ci hci hv
      simp only [hcase] at hv ⊢
      split at hv
      next hc => rw [if_pos hc, hpage]; exact hp
      next hc => rw [if_neg hc]; exact h.page_lt ci hci hv
    · intro ci hci hv
      simp only [hcase] at hv ⊢
      split at hv
      next hc => rw [if_pos hc, hpage]; exact hclear
      next hc => rw [if_neg hc]; exact h.cached_clear ci hci hv
    · intro ci hci cj hcj hvi hvj he
      simp only [hcase] at hvi hvj he
      by_cases hci' : ci = c
      · by_cases hcj' : cj = c
        · rw [hci', hcj']
        · rw [if_pos hci', if_neg hcj', hpage] at he
          rw [if_neg hcj'] at hvj
          exact absurd he.symm (hno cj hcj hvj)
      · by_cases hcj' : cj = c
        · rw [if_neg hci', if_pos hcj', hpage] at he
          rw [if_neg hci'] at hvi
          exact absurd he (hno ci hci hvi)
        · rw [if_neg hci', if_neg hcj'] at he
          rw [if_neg hci'] at hvi
          rw [if_neg hcj'] at hvj
          exact h.cached_inj ci hci cj hcj hvi hvj he

theorem hotBit_remember (s : MmState) (g bit p : ℕ) : (s.remember g bit).hotBit p = s.hotBit p := by
  unfold MmState.remember
  split <;> rfl

theorem pfree_hotAddr (hp : p < hotZonePages) (s : MmState) : pfree (hotAddr p) s =
      if s.hotBitmap.get p then
        ({ s with
          hotBitmap := s.hotBitmap.clear p
          hotUsed := decr64 s.hotUsed } : MmState).remember (p / 64) (p % 64)
      else s := by
  unfold hotZonePages at hp
  have h1 : ¬ boomerangBase ≤ hotAddr p := by
    unfold boomerangBase warmBase heapBase hotAddr heapBase pageSize
    omega
  have h2 : ¬ warmBase ≤ hotAddr p := by
    unfold warmBase heapBase hotAddr heapBase pageSize
    omega
  have h3 : (hotAddr p + (2 ^ 64 - heapBase)) % 2 ^ 64 / pageSize = p := by
    unfold hotAddr heapBase pageSize
    omega
  unfold pfree
  rw [if_neg h1, if_neg h2]
  simp only [h3]

theorem pfree_spec (hp : p < hotZonePages) (hinv : HotInv s) : HotInv (pfree (hotAddr p) s) ∧
      ∀ q, (pfree (hotAddr p) s).hotBit q = (!decide (q = p) && s.hotBit q) := by
  rw [pfree_hotAddr hp]
  by_cases hset : s.hotBitmap.get p = true
  · rw [if_pos hset]
    have hbit : ∀ q, ({ s with
        hotBitmap := s.hotBitmap.clear p
        hotUsed := decr64 s.hotUsed } : MmState).hotBit q = (!decide (q = p) && s.hotBit q) :=
      fun q => get_clear (by decide) s.hotBitmap p q
    -- no valid entry names `p`, whose bit was set
    have hno : ∀ ci < hotCacheSlots, (s.hotFreeCache ci).valid = true →
        (s.hotFreeCache ci).page ≠ p := by
      intro ci hci hv he
      have hc := hinv.cached_clear ci hci hv
      rw [he] at hc
      exact Bool.noConfusion (hset.symm.trans hc)
    have hmid : HotInv ({ s with
        hotBitmap := s.hotBitmap.clear p
        hotUsed := decr64 s.hotUsed } : MmState) := by
      refine ⟨⟨hinv.bit_lt, hinv.page_lt, fun ci hci hv => ?_, hinv.cached_inj⟩, ?_⟩
      · rw [hbit]
        have hc := hinv.cached_clear ci hci hv
        simp [hc]
      · show decr64 s.hotUsed = (s.hotBitmap.clear p).popcount hotZonePages
        have h1 := popcount_clear (by decide) s.hotBitmap hp hset
        have hle := popcount_le s.hotBitmap hotZonePages
        rw [← hinv.used_eq] at h1 hle
        unfold hotZonePages at hle
        unfold decr64
        omega
    refine ⟨hmid.remember hp (by rw [hbit]; simp) hno, fun q => ?_⟩
    rw [hotBit_remember, hbit]
  · rw [if_neg hset]
    refine ⟨hinv, fun q => ?_⟩
    by_cases hq : q = p
    · subst hq
      simpa [MmState.hotBit] using hset
    · simp [hq]

theorem pfreeContig_spec :
    ∀ {n p : ℕ} {s : MmState}, p + n ≤ hotZonePages → HotInv s →
      HotInv (pfreeContig (hotAddr p) n s) ∧
        ∀ q, (pfreeContig (hotAddr p) n s).hotBit q =
          (!decide (p ≤ q ∧ q < p + n) && s.hotBit q) := by
  intro n
  induction n with
  | zero =>
    intro p s _ hinv
    refine ⟨hinv, fun q => ?_⟩
    have hno : ¬ (p ≤ q ∧ q < p + 0) := by omega
    rw [decide_eq_false hno]
    rfl
  | succ n ih =>
    intro p s hle hinv
    obtain ⟨hinv', hbit⟩ := pfree_spec (p := p) (by omega) hinv
    have hnext : hotAddr p + pageSize = hotAddr (p + 1) := by
      unfold hotAddr
      rw [Nat.add_mul, Nat.one_mul, Nat.add_assoc]
    unfold pfreeContig
    rw [hnext]
    obtain ⟨hinv'', hbit'⟩ := ih (p := p + 1) (by omega) hinv'
    refine ⟨hinv'', fun q => ?_⟩
    rw [hbit', hbit]
    by_cases hq : q = p
    · subst hq
      simp
    · have hiff : (p + 1 ≤ q ∧ q < p + 1 + n) ↔ (p ≤ q ∧ q < p + (n + 1)) := by omega
      rw [decide_eq_false hq, decide_eq_decide.mpr hiff, Bool.not_false, Bool.true_and]

/-! ## Runs -/

inductive HotOp where
  | pmalloc (ans : ℕ → ℕ → Bool)
  | pmallocContig (ans : ℕ → ℕ → Bool) (pages : ℕ)
  | pfree (addr : ℕ)
  | pfreeContig (addr pages : ℕ)

/-- Contiguous allocations ask for at least one page, and only hot-zone page addresses are freed;
whether the page is in use is left open. -/
def HotOp.Legal : HotOp → Prop
  | .pmalloc _ => True
  | .pmallocContig _ pages => 1 ≤ pages
  | .pfree addr => ∃ p, p < hotZonePages ∧ addr = hotAddr p
  | .pfreeContig addr pages => ∃ p, p + pages ≤ hotZonePages ∧ addr = hotAddr p

/-- The allocator together with the pages that were returned and not freed since. -/
structure HotRun where
  mm : MmState
  held : Set ℕ

def runPages (a n : ℕ) : Set ℕ := {p | pageOf a ≤ p ∧ p < pageOf a + n}

def HotRun.receive (held : Set ℕ) (n : ℕ) : Option ℕ → Set ℕ
  | some a => held ∪ runPages a n
  | none => held

def HotRun.step (r : HotRun) : HotOp → HotRun
  | .pmalloc ans => ⟨(pmalloc ans r.mm).2, HotRun.receive r.held 1 (pmalloc ans r.mm).1⟩
  | .pmallocContig ans n =>
    ⟨(pmallocContig ans n r.mm).2, HotRun.receive r.held n (pmallocContig ans n r.mm).1⟩
  | .pfree a => ⟨pfree a r.mm, r.held \ runPages a 1⟩
  | .pfreeContig a n => ⟨pfreeContig a n r.mm, r.held \ runPages a n⟩

/-- The calls of a list, one after the other, from the state `mm_init` leaves behind. -/
def HotRun.exec (s : MmState) (ops : List HotOp) : HotRun :=
  ops.foldl HotRun.step ⟨mmInit s, ∅⟩

/-- The invariant of a run: the allocator agrees with itself, and every held page has its bit
set. -/
structure HotRun.Inv (r : HotRun) : Prop where
  hot : HotInv r.mm
  held_set : ∀ p ∈ r.held, r.mm.hotBit p = true

theorem hotInv_mmInit (s : MmState) : HotInv (mmInit s) where
  bit_lt := fun _ _ hv => Bool.noConfusion hv
  page_lt := fun _ _ hv => Bool.noConfusion hv
  cached_clear := fun _ _ hv => Bool.noConfusion hv
  cached_inj := fun _ _ _ _ hv => Bool.noConfusion hv
  used_eq := by
    symm
    show Finset.card _ = 0
    rw [Finset.card_eq_zero, Finset.eq_empty_iff_forall_notMem]
    intro p hp
    have := (mem_support.mp hp).2
    simp [mmInit, WordBitmap.get] at this

theorem HotRun.Inv.receive {r : HotRun} (h : r.Inv) {n : ℕ} {res : Option ℕ × MmState}
    (ho : ContigOutcome r.mm n res) : HotRun.Inv ⟨res.2, HotRun.receive r.held n res.1⟩ := by
  refine ⟨ho.inv, fun p hp => ?_⟩
  obtain ⟨_ | a, s'⟩ := res
  · exact ho.grows p (h.held_set p hp)
  · rcases hp with hp | ⟨h1, h2⟩
    · exact ho.grows p (h.held_set p hp)
    · obtain ⟨b, hb, hf⟩ := ho.found a rfl
      rw [hb, pageOf_hotAddr] at h1 h2
      have := (hf (p - b) (by omega)).now_set
      rwa [show b + (p - b) = p by omega] at this

theorem HotRun.step_inv {r : HotRun} (h : r.Inv) {op : HotOp} (hl : op.Legal) :
    (r.step op).Inv := by
  cases op with
  | pmalloc ans => exact h.receive (pmalloc_spec ans h.hot).toContig
  | pmallocContig ans n => exact h.receive (pmallocContig_spec ans hl h.hot)
  | pfree a =>
    obtain ⟨p, hp, rfl⟩ := hl
    obtain ⟨hinv, hbit⟩ := pfree_spec hp h.hot
    refine ⟨hinv, fun q hq => ?_⟩
    obtain ⟨hheld, hout⟩ := hq
    have hne : q ≠ p := by
      rintro rfl
      exact hout ⟨by rw [pageOf_hotAddr], by rw [pageOf_hotAddr]; omega⟩
    show (Mm.pfree (hotAddr p) r.mm).hotBit q = true
    rw [hbit, h.held_set q hheld]
    simp [hne]
  | pfreeContig a n =>
    obtain ⟨p, hp, rfl⟩ := hl
    obtain ⟨hinv, hbit⟩ := pfreeContig_spec hp h.hot
    refine ⟨hinv, fun q hq => ?_⟩
    obtain ⟨hheld, hout⟩ := hq
    have hne : ¬ (p ≤ q ∧ q < p + n) := fun he => hout (by rwa [runPages, pageOf_hotAddr])
    show (Mm.pfreeContig (hotAddr p) n r.mm).hotBit q = true
    rw [hbit, h.held_set q hheld]
    simp [hne]

theorem HotRun.exec_inv (s : MmState) {ops : List HotOp} (hl : ∀ op ∈ ops, op.Legal) :
    (HotRun.exec s ops).Inv := by
  unfold HotRun.exec
  have hstart : HotRun.Inv ⟨mmInit s, ∅⟩ := ⟨hotInv_mmInit s, fun p hp => absurd hp (by simp)⟩
  generalize (⟨mmInit s, ∅⟩ : HotRun) = r at hstart
  induction ops generalizing r with
  | nil => exact hstart
  | cons op ops ih =>
    rw [List.foldl_cons]
    exact ih (fun o ho => hl o (List.mem_cons_of_mem _ ho)) _
      (HotRun.step_inv hstart (hl op List.mem_cons_self))

theorem HotRun.Inv.notMem_held {r : HotRun} (h : r.Inv) (hp : r.mm.hotBit p = false) :
    p ∉ r.held := by
  intro hh
  exact Bool.noConfusion ((h.held_set p hh).symm.trans hp)

/-- **Hot-zone safety.**  After any sequence of calls from `mm_init`, with any answers of
`paddr_linear_ok`: the next `pmalloc` and the next `pmalloc_contig` return no page that is still
held; every valid cache entry names a page whose bit is clear, and no two name the same page; and
`used_pages` counts the set bits. -/
theorem hotZone_safe (s : MmState) (ops : List HotOp) (hl : ∀ op ∈ ops, op.Legal) :
    (∀ ans a, (pmalloc ans (HotRun.exec s ops).mm).1 = some a →
      pageOf a ∉ (HotRun.exec s ops).held) ∧
    (∀ ans n a, 1 ≤ n → (pmallocContig ans n (HotRun.exec s ops).mm).1 = some a →
      ∀ i < n, pageOf (a + i * pageSize) ∉ (HotRun.exec s ops).held) ∧
    (∀ ci < hotCacheSlots, ((HotRun.exec s ops).mm.hotFreeCache ci).valid = true →
      ((HotRun.exec s ops).mm.hotFreeCache ci).page < hotZonePages ∧
      (HotRun.exec s ops).mm.hotBit ((HotRun.exec s ops).mm.hotFreeCache ci).page = false) ∧
    (∀ ci < hotCacheSlots, ∀ cj < hotCacheSlots, ci ≠ cj →
      ((HotRun.exec s ops).mm.hotFreeCache ci).valid = true →
      ((HotRun.exec s ops).mm.hotFreeCache cj).valid = true →
      ((HotRun.exec s ops).mm.hotFreeCache ci).page ≠
        ((HotRun.exec s ops).mm.hotFreeCache cj).page) ∧
    (HotRun.exec s ops).mm.hotUsed =
      (HotRun.exec s ops).mm.hotBitmap.popcount hotZonePages := by
  have h := HotRun.exec_inv s hl
  refine ⟨fun ans a ha => ?_, fun ans n a hn ha i hi => ?_, fun ci hci hv => ?_,
    fun ci hci cj hcj hne hvi hvj he => ?_, h.hot.used_eq⟩
  · obtain ⟨p, rfl, hf⟩ := (pmalloc_spec ans h.hot).found a ha
    rw [pageOf_hotAddr]
    exact h.notMem_held hf.was_clear
  · obtain ⟨p, rfl, hf⟩ := (pmallocContig_spec ans hn h.hot).found a ha
    have hrun : hotAddr p + i * pageSize = hotAddr (p + i) := by
      unfold hotAddr
      rw [Nat.add_mul, Nat.add_assoc]
    rw [hrun, pageOf_hotAddr]
    exact h.notMem_held (hf i hi).was_clear
  · exact ⟨h.hot.page_lt ci hci hv, h.hot.cached_clear ci hci hv⟩
  · exact hne (h.hot.cached_inj ci hci cj hcj hvi hvj he)

/-- A run that frees a page twice and a run of pages once. -/
theorem hotZone_safe_doubleFree :
    ((∀ op ∈ [HotOp.pmalloc fun _ _ => true, .pmallocContig (fun _ _ => true) 3,
        .pfree (hotAddr 0), .pfree (hotAddr 0), .pfreeContig (hotAddr 64) 3], op.Legal)) ∧
      ∀ s, (HotRun.exec s [HotOp.pmalloc fun _ _ => true, .pmallocContig (fun _ _ => true) 3,
        .pfree (hotAddr 0), .pfree (hotAddr 0), .pfreeContig (hotAddr 64) 3]).mm.hotUsed =
        (HotRun.exec s [HotOp.pmalloc fun _ _ => true, .pmallocContig (fun _ _ => true) 3,
          .pfree (hotAddr 0), .pfree (hotAddr 0),
          .pfreeContig (hotAddr 64) 3]).mm.hotBitmap.popcount hotZonePages := by
  have hl : ∀ op ∈ [HotOp.pmalloc fun _ _ => true, .pmallocContig (fun _ _ => true) 3,
      .pfree (hotAddr 0), .pfree (hotAddr 0), .pfreeContig (hotAddr 64) 3], op.Legal := by
    intro op hop
    simp only [List.mem_cons, List.not_mem_nil, or_false] at hop
    rcases hop with rfl | rfl | rfl | rfl | rfl
    · trivial
    · exact (by decide : 1 ≤ 3)
    · exact ⟨0, by decide, rfl⟩
    · exact ⟨0, by decide, rfl⟩
    · exact ⟨64, by decide, rfl⟩
  exact ⟨hl, fun s => (hotZone_safe s _ hl).2.2.2.2⟩

end BananaOS.Mm
