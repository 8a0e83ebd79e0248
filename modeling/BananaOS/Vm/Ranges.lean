import BananaOS.Vm.AddressSpace

/-!
# Ranges of pages

`sys_mmap`, `sys_brk` and `vm_map` share one loop: allocate a page, fill it, map it, go on with the next
address.  `mapPages` is this loop and `MapsPages` what it does, however far it comes: the pages of
memory that it has mapped, one after the other, are fresh, and the rest of the address space is as
before.  `unmapLoop_range` is the counterpart for the loop of `vm_unmap`.
-/

namespace BananaOS.Vm

open Function FailState RadixTree

def pageNo (y : ℕ) : ℕ := y / 4096 % 2 ^ 36

variable {y a : ℕ}

theorem pageNo_mod (x : ℕ) : pageNo (x % 2 ^ 64) = pageNo x := by
  simp only [pageNo]
  omega

theorem pageNo_of_lt (h : y < 2 ^ 48) : pageNo y = y / 4096 := by
  simp only [pageNo]
  omega

theorem pageNo_ne {i j : ℕ} (hi : i < j) (hj : j < i + 2 ^ 36) (ha : a % 4096 = 0) :
    pageNo (a + i * 4096) ≠ pageNo (a + j * 4096) := by
  simp only [pageNo]
  omega

theorem remap_of_ne {va : ℕ} (leaf w : ℕ → Option Leaf) (h : pageNo y ≠ pageNo va) :
    remap va leaf w y = w y := if_neg h

theorem remap_of_eq {va : ℕ} (leaf w : ℕ → Option Leaf) (h : pageNo y = pageNo va) :
    remap va leaf w y = leaf y := if_pos h

/-! ## Memory outside the tables -/

section

variable {m m' : PhysMem} {root : ℕ}

section

variable (h : ∀ t, IsTable m root t → m' t = m t)

include h

theorem nodeAt_of_tables (y k : ℕ) : tables.nodeAt m' root y k = tables.nodeAt m root y k :=
  nodeAt_congr fun j _ s hs => congrFun (h s ⟨y, j, hs⟩) _

theorem walk_of_tables (y : ℕ) : walk m' root y = walk m root y :=
  walk_eq_of_entries fun k s hs => congrFun (h s ⟨y, k, hs⟩) _

theorem isTable_of_tables (f : ℕ) : IsTable m' root f ↔ IsTable m root f := by
  constructor
  · rintro ⟨y, k, hf⟩
    exact ⟨y, k, (nodeAt_of_tables h y k).symm.trans hf⟩
  · rintro ⟨y, k, hf⟩
    exact ⟨y, k, (nodeAt_of_tables h y k).trans hf⟩

end

theorem PageTables.of_tables (hinv : PageTables m root) (h : ∀ t, IsTable m root t → m' t = m t) :
    PageTables m' root := by
  have hnodes := nodeAt_of_tables h
  refine ⟨fun x y k j t hx hy => ?_, fun y k t ht => ?_, fun y k s t hs ht hu => ?_⟩
  · rw [hnodes] at hx hy
    exact hinv.tree hx hy
  · rw [hnodes] at ht
    rw [h t ⟨y, k, ht⟩]
    exact hinv.entry ht
  · rw [hnodes] at hs ht
    rw [h t ⟨y, k + 1, ht⟩] at hu
    rw [h s ⟨y, k, hs⟩]
    exact hinv.user hs ht hu

end

/-! ## Mapping pages one after the other -/

/-- The words of the page with number `i`: what was read from a file, or zeros. -/
def pageData (data : Option (ℕ → ℕ → Word)) (i : ℕ) : ℕ → Word :=
  match data with
  | some d => d i
  | none => fun _ => 0

/-- The loop over `n` pages: page `i` goes to address `a`.  With a file the page is overwritten before
it is mapped. -/
def mapPages (pm : ℕ → Option ℕ) (root : ℕ) (flags : Word) (data : Option (ℕ → ℕ → Word)) :
    ℕ → ℕ → ℕ → VmM Unit
  | 0, _, _ => pure ()
  | n + 1, i, a => do
    let page ← allocTable pm
    match data with
    | some d => fillPage page (d i)
    | none => pure ()
    vmMapPage pm root a (addrBits page) flags
    mapPages pm root flags data n (i + 1) ((a + 4096) % 2 ^ 64)

/-- The translations after the pages `fs` were mapped from address `a` on. -/
def remapAll (flags : Word) : ℕ → List ℕ → (ℕ → Option Leaf) → ℕ → Option Leaf
  | _, [], w => w
  | a, f :: fs, w => remapAll flags (a + 4096) fs
      (remap a (fun y => some (mapped (addrBits f) flags y)) w)

theorem remapAll_congr {flags : Word} : ∀ {fs : List ℕ} {a b : ℕ} (w : ℕ → Option Leaf),
    pageNo a = pageNo b → remapAll flags a fs w = remapAll flags b fs w := by
  intro fs
  induction fs with
  | nil => exact fun _ _ => rfl
  | cons f fs ih =>
    intro a b w h
    have hfirst : ∀ leaf, remap a leaf w = remap b leaf w := by
      intro leaf
      funext y
      exact if_congr (Eq.congr_right h) rfl rfl
    have hnext : pageNo (a + 4096) = pageNo (b + 4096) := by
      simp only [pageNo] at h ⊢
      omega
    rw [remapAll, remapAll, hfirst, ih _ hnext]

def Took (pm : ℕ → Option ℕ) (a b f : ℕ) : Prop := ∃ k, a ≤ k ∧ k < b ∧ pm k = some f

theorem Took.mono {pm : ℕ → Option ℕ} {b a' b' f : ℕ} (h : Took pm a b f) (ha : a' ≤ a)
    (hb : b ≤ b') : Took pm a' b' f := by
  obtain ⟨k, h1, h2, h3⟩ := h
  exact ⟨k, ha.trans h1, h2.trans_le hb, h3⟩

theorem Took.not_later {pm : ℕ → Option ℕ} {b b' f : ℕ} {used : ℕ → Prop}
    (hsup : Supply pm a b' used) (h : Took pm a b f) : ¬ Took pm b b' f := by
  rintro ⟨k, h1, h2, h3⟩
  obtain ⟨j, h1', h2', h3'⟩ := h
  exact hsup.apart h1' (h2'.trans_le h1) h2 h3' h3

/-- **What the loop does**, when it has mapped the pages `fs`. -/
structure MapsPages (pm : ℕ → Option ℕ) (root : ℕ) (flags : Word) (data : ℕ → ℕ → Word)
    (i a : ℕ) (s s' : VmSys) (fs : List ℕ) : Prop where
  inv : PageTables s'.mem root
  calls : s.calls ≤ s'.calls
  walk : ∀ y, walk s'.mem root y = remapAll flags a fs (walk s.mem root) y
  tables : ∀ f, IsTable s'.mem root f → IsTable s.mem root f ∨ Took pm s.calls s'.calls f
  keep : ∀ f, IsTable s.mem root f → IsTable s'.mem root f
  changed : ∀ f, s'.mem f ≠ s.mem f → IsTable s.mem root f ∨ Took pm s.calls s'.calls f
  content : ∀ j f, fs[j]? = some f → s'.mem f = data (i + j)
  frames : ∀ f ∈ fs, Took pm s.calls s'.calls f ∧ ¬ IsTable s'.mem root f
  nodup : fs.Nodup

section

variable {pm : ℕ → Option ℕ} {root : ℕ} {flags : Word} {data : Option (ℕ → ℕ → Word)} {s s' : VmSys}

/-- From `s` to `s'`, tables stay tables, and what becomes one or changes was one or has been taken
from the allocator. -/
structure Extends (pm : ℕ → Option ℕ) (root : ℕ) (s s' : VmSys) : Prop where
  calls : s.calls ≤ s'.calls
  tables : ∀ f, IsTable s'.mem root f → IsTable s.mem root f ∨ Took pm s.calls s'.calls f
  keep : ∀ f, IsTable s.mem root f → IsTable s'.mem root f
  changed : ∀ f, s'.mem f ≠ s.mem f → IsTable s.mem root f ∨ Took pm s.calls s'.calls f

theorem Extends.refl (s : VmSys) : Extends pm root s s :=
  ⟨le_rfl, fun _ => Or.inl, fun _ => id, fun _ hf => absurd rfl hf⟩

theorem Extends.trans {s₁ : VmSys} (h : Extends pm root s s₁) (h' : Extends pm root s₁ s') :
    Extends pm root s s' := by
  have hold : ∀ f, IsTable s.mem root f ∨ Took pm s.calls s₁.calls f →
      IsTable s.mem root f ∨ Took pm s.calls s'.calls f :=
    fun f => Or.imp_right (·.mono le_rfl h'.calls)
  have hnew : ∀ f, IsTable s₁.mem root f ∨ Took pm s₁.calls s'.calls f →
      IsTable s.mem root f ∨ Took pm s.calls s'.calls f :=
    fun f hf => hf.elim (fun hf => hold f (h.tables f hf)) fun hf => .inr (hf.mono h.calls le_rfl)
  refine ⟨h.calls.trans h'.calls, fun f hf => hnew f (h'.tables f hf),
    fun f hf => h'.keep f (h.keep f hf), fun f hf => ?_⟩
  by_cases hf₁ : s₁.mem f = s.mem f
  · exact hnew f (h'.changed f (hf₁ ▸ hf))
  · exact hold f (h.changed f hf₁)

theorem Grows.extends (h : Grows pm root s s') : Extends pm root s s' :=
  ⟨h.calls, h.fresh, h.keep, fun f hf => h.fresh f (h.changed f hf)⟩

theorem MapsPages.none {i : ℕ} {d : ℕ → ℕ → Word} (hinv : PageTables s'.mem root)
    (hwalk : ∀ y, Vm.walk s'.mem root y = Vm.walk s.mem root y) (h : Extends pm root s s') :
    MapsPages pm root flags d i a s s' [] where
  inv := hinv
  calls := h.calls
  walk := hwalk
  tables := h.tables
  keep := h.keep
  changed := h.changed
  content j f h := by simp at h
  frames f h := absurd h List.not_mem_nil
  nodup := List.nodup_nil

theorem mapPages_succ (n i a : ℕ) : mapPages pm root flags data (n + 1) i a s =
    match pm s.calls with
    | none => (none, { s with calls := s.calls + 1 })
    | some g => (vmMapPage pm root a (addrBits g) flags >>= fun _ =>
        mapPages pm root flags data n (i + 1) ((a + 4096) % 2 ^ 64))
          ⟨update s.mem g (pageData data i), s.calls + 1⟩ := by
  rw [mapPages]
  have halloc := allocTable_run pm s
  rcases hpm : pm s.calls with _ | g
  · rw [hpm] at halloc
    exact bind_of_none halloc
  · rw [hpm] at halloc
    rw [bind_of_some halloc]
    rcases data with _ | d
    · rfl
    · show (fillPage g (d i) >>= _) _ = _
      rw [fillPage, modify_bind_run]
      dsimp only
      rw [update_idem]
      rfl

theorem mapPages_spec : ∀ {n i a : ℕ} {s : VmSys}, PageTables s.mem root → a % 4096 = 0 →
    ∀ {b : ℕ}, s.calls + 4 * n ≤ b → Supply pm s.calls b (IsTable s.mem root) →
    ∃ fs, MapsPages pm root flags (pageData data) i a s (mapPages pm root flags data n i a s).2 fs ∧
      fs.length ≤ n ∧ (mapPages pm root flags data n i a s).2.calls ≤ s.calls + 4 * n ∧
      ((mapPages pm root flags data n i a s).1 = some () → fs.length = n) ∧
      ((mapPages pm root flags data n i a s).1 = none →
        ∃ k, s.calls ≤ k ∧ k < s.calls + 4 * n ∧ pm k = none) := by
  intro n
  induction n with
  | zero =>
    intro i a s h _ b _ _
    exact ⟨[], .none h (fun _ => rfl) (.refl s), le_rfl, le_rfl, fun _ => rfl, fun hr => nomatch hr⟩
  | succ n ih =>
    intro i a s h ha b hb hsup
    rw [mapPages_succ]
    rcases hpm : pm s.calls with _ | g
    · exact ⟨[], .none h (fun _ => rfl) ⟨Nat.le_succ _, fun _ => Or.inl, fun _ => id,
        fun f hf => absurd rfl hf⟩, Nat.zero_le _, by dsimp only; omega, fun hr => (nomatch hr),
        fun _ => ⟨s.calls, le_rfl, by omega, hpm⟩⟩
    -- the page is filled, and no table is touched
    obtain ⟨hg, hgtab⟩ := hsup.page le_rfl (by omega) hpm
    dsimp only
    generalize hs₁ : (⟨update s.mem g (pageData data i), s.calls + 1⟩ : VmSys) = s₁
    have hmem₁ : s₁.mem = update s.mem g (pageData data i) := by rw [← hs₁]
    have hcalls₁ : s₁.calls = s.calls + 1 := by rw [← hs₁]
    have hsame : ∀ t, IsTable s.mem root t → s₁.mem t = s.mem t := by
      intro t ht
      rw [hmem₁, update_of_ne]
      rintro rfl
      exact hgtab ht
    have h₁ := h.of_tables hsame
    have htab₁ := isTable_of_tables hsame
    have hwalk₁ := walk_of_tables hsame
    have hgtook : Took pm s.calls s₁.calls g := ⟨s.calls, le_rfl, by omega, hpm⟩
    have hext₁ : Extends pm root s s₁ := by
      refine ⟨by omega, fun f => Or.inl ∘ (htab₁ f).mp, fun f => (htab₁ f).mpr, fun f hf => .inr ?_⟩
      by_cases hfg : f = g
      · exact hfg ▸ hgtook
      · rw [hmem₁, update_of_ne hfg] at hf
        exact absurd rfl hf
    have hsup₁ : Supply pm s₁.calls b (IsTable s₁.mem root) := by
      refine ⟨fun k f hk hkb hf => ?_, fun j k f hj => hsup.apart (by omega)⟩
      rw [htab₁]
      exact hsup.page (by omega) hkb hf
    have hsup₁' : Supply pm s₁.calls (s₁.calls + 3) (IsTable s₁.mem root) :=
      ⟨fun k f hk hkb => hsup₁.page hk (by omega), fun j k f hj hjk hk => hsup₁.apart hj hjk (by omega)⟩
    obtain ⟨s₂, hrun, hc₂, hkept, hnone⟩ | ⟨s₂, hrun, hc₂, hre⟩ :=
      vmMapPage_spec h₁ ha (addrBits g) flags hsup₁'
    · -- the page could not be mapped
      rw [bind_of_none hrun]
      dsimp only
      have hle := hkept.grows.calls
      refine ⟨[], .none hkept.inv (fun y => (hkept.walk y).trans (hwalk₁ y))
        (hext₁.trans hkept.grows.extends), Nat.zero_le _, by omega, fun hr => (nomatch hr),
        fun _ => ?_⟩
      obtain ⟨k, h1, h2, h3⟩ := hnone
      exact ⟨k, by omega, by omega, h3⟩
    · rw [bind_of_some hrun]
      have hle := hre.grows.calls
      have hsup₂ := hre.grows.supply hsup₁
      have ha₂ : (a + 4096) % 2 ^ 64 % 4096 = 0 := by omega
      obtain ⟨fs, hfs, hlen, hcalls, hall, hnone⟩ := ih (i := i + 1) hre.inv ha₂ (by omega) hsup₂
      have hle' := hfs.calls
      -- the new page is no table, now or later
      have hgtab₂ : ¬ IsTable s₂.mem root g := by
        intro hgt
        rcases hre.grows.fresh g hgt with hgt | hgt
        · exact hgtab ((htab₁ g).mp hgt)
        · exact hgtook.not_later hsup (Took.mono hgt le_rfl (by omega))
      have hglater : ¬ Took pm s₂.calls (mapPages pm root flags data n (i + 1)
          ((a + 4096) % 2 ^ 64) s₂).2.calls g := fun hgt =>
        hgtook.not_later hsup (hgt.mono hle (by omega))
      have hext := (hext₁.trans hre.grows.extends).trans
        ⟨hfs.calls, hfs.tables, hfs.keep, hfs.changed⟩
      refine ⟨g :: fs, ⟨hfs.inv, hext.calls, fun y => ?_, hext.tables, hext.keep, hext.changed,
        fun j f hj => ?_, fun f hf => ?_, ?_⟩, Nat.succ_le_succ hlen, by omega, fun hr => ?_,
        fun hr => ?_⟩
      · have hw₂ : Vm.walk s₂.mem root =
            remap a (fun y => some (mapped (addrBits g) flags y)) (Vm.walk s.mem root) := by
          rw [← funext hwalk₁]
          exact funext hre.walk
        rw [hfs.walk, remapAll, hw₂, remapAll_congr _ (pageNo_mod (a + 4096))]
      · rcases j with _ | j
        · cases hj
          -- what the loop changes later are tables and later pages
          have hg₂ : s₂.mem g = s₁.mem g := by
            by_contra hne
            exact hgtab₂ (hre.grows.changed g hne)
          have hg₃ : (mapPages pm root flags data n (i + 1) ((a + 4096) % 2 ^ 64) s₂).2.mem g =
              s₂.mem g := by
            by_contra hne
            rcases hfs.changed g hne with hgt | hgt
            · exact hgtab₂ hgt
            · exact hglater hgt
          rw [hg₃, hg₂, hmem₁, update_self, Nat.add_zero]
        · rw [List.getElem?_cons_succ] at hj
          rw [hfs.content j f hj, Nat.add_assoc, Nat.add_comm 1 j]
      · rcases List.mem_cons.mp hf with rfl | hf
        · refine ⟨hgtook.mono le_rfl (hle.trans hle'), fun hgt => ?_⟩
          rcases hfs.tables f hgt with hgt | hgt
          · exact hgtab₂ hgt
          · exact hglater hgt
        · exact ⟨(hfs.frames f hf).1.mono (by omega) le_rfl, (hfs.frames f hf).2⟩
      · exact List.nodup_cons.mpr ⟨fun hmem => hglater (hfs.frames g hmem).1, hfs.nodup⟩
      · exact congrArg Nat.succ (hall hr)
      · obtain ⟨k, h1, h2, h3⟩ := hnone hr
        exact ⟨k, by omega, by omega, h3⟩

end

/-! ## Looking up a range -/

def InRange (a n y : ℕ) : Prop := ∃ j < n, pageNo y = pageNo (a + j * 4096)

theorem inRange_succ {n : ℕ} :
    InRange a (n + 1) y ↔ pageNo y = pageNo a ∨ InRange (a + 4096) n y := by
  have hnext : ∀ k, a + 4096 + k * 4096 = a + (k + 1) * 4096 := fun k => by ring
  constructor
  · rintro ⟨j, hj, hy⟩
    rcases j with _ | j
    · rw [Nat.zero_mul, Nat.add_zero] at hy
      exact Or.inl hy
    · exact Or.inr ⟨j, by omega, by rw [hnext, hy]⟩
  · rintro (hy | ⟨j, hj, hy⟩)
    · exact ⟨0, Nat.succ_pos n, by rw [Nat.zero_mul, Nat.add_zero, hy]⟩
    · exact ⟨j + 1, by omega, by rw [hy, hnext]⟩

section

variable {flags : Word}

theorem remapAll_of_apart : ∀ {fs : List ℕ} {a : ℕ} {w : ℕ → Option Leaf},
    (∀ j < fs.length, pageNo y ≠ pageNo (a + j * 4096)) → remapAll flags a fs w y = w y := by
  intro fs
  induction fs with
  | nil =>
    intro a w _
    rfl
  | cons f fs ih =>
    intro a w h
    rw [remapAll, ih, remap_of_ne]
    · have h0 := h 0 (Nat.succ_pos _)
      rwa [Nat.zero_mul, Nat.add_zero] at h0
    · intro j hj
      have hnext : a + 4096 + j * 4096 = a + (j + 1) * 4096 := by ring
      rw [hnext]
      exact h (j + 1) (Nat.succ_lt_succ hj)

theorem remapAll_of_mem : ∀ {fs : List ℕ} {a j f : ℕ} {w : ℕ → Option Leaf},
    a % 4096 = 0 → fs.length ≤ 2 ^ 36 → fs[j]? = some f → pageNo y = pageNo (a + j * 4096) →
    remapAll flags a fs w y = some (mapped (addrBits f) flags y) := by
  intro fs
  induction fs with
  | nil =>
    intro a j f w _ _ hj
    rw [List.getElem?_nil] at hj
    cases hj
  | cons f fs ih =>
    intro a j g w ha hlen hj hy
    rw [List.length_cons] at hlen
    have hnext : ∀ k, a + 4096 + k * 4096 = a + (k + 1) * 4096 := fun k => by ring
    rw [remapAll]
    rcases j with _ | j
    · cases hj
      rw [remapAll_of_apart, remap_of_eq]
      · rwa [Nat.zero_mul, Nat.add_zero] at hy
      · intro k hk
        rw [hnext, hy]
        exact pageNo_ne (Nat.succ_pos k) (by omega) ha
    · rw [List.getElem?_cons_succ] at hj
      exact ih (by omega) (by omega) hj (by rw [hy, hnext])

end

theorem remapAll_of_inRange {flags : Word} {y : ℕ} : ∀ {fs : List ℕ} {a : ℕ} {w : ℕ → Option Leaf},
    InRange a fs.length y →
    ∃ f ∈ fs, remapAll flags a fs w y = some (mapped (addrBits f) flags y) := by
  intro fs
  induction fs with
  | nil =>
    rintro a w ⟨j, hj, -⟩
    exact absurd hj j.not_lt_zero
  | cons f fs ih =>
    intro a w h
    rw [remapAll]
    by_cases htail : InRange (a + 4096) fs.length y
    · obtain ⟨g, hg, hrun⟩ := ih (w := remap a (fun y => some (mapped (addrBits f) flags y)) w) htail
      exact ⟨g, List.mem_cons_of_mem f hg, hrun⟩
    · refine ⟨f, List.mem_cons_self, ?_⟩
      rw [remapAll_of_apart fun j hj heq => htail ⟨j, hj, heq⟩,
        remap_of_eq _ _ ((inRange_succ.mp h).resolve_right htail)]

/-! ## Taking a range away -/

section

variable {m : PhysMem} {root : ℕ}

theorem idx_of_pageNo {z : ℕ} (h : pageNo y = pageNo z) {n : ℕ} (hn : n < 4) :
    idx n y = idx n z := by
  have hag := agree_four.mpr h (3 - n) (by omega)
  rwa [tables_ix, tables_ix, show 3 - (3 - n) = n by omega] at hag

theorem walkAt_of_pageNo {z : ℕ} (h : pageNo y = pageNo z) : ∀ {n t : ℕ}, n ≤ 4 → walkAt m n t y =
      (walkAt m n t z).map fun l => { l with addr := l.addr / 4096 * 4096 + y % 4096 } := by
  intro n
  induction n with
  | zero => exact fun _ => rfl
  | succ n ih =>
    intro t hn
    simp only [walkAt, idx_of_pageNo h hn]
    split_ifs with hp hleaf
    · have hsize : y % 2 ^ (12 + 9 * n) =
          z % 2 ^ (12 + 9 * n) / 4096 * 4096 + y % 4096 := by
        have hn3 : n < 3 := by omega
        simp only [pageNo] at h
        obtain rfl | rfl | rfl : n = 0 ∨ n = 1 ∨ n = 2 := by omega
        · norm_num
        · norm_num
          omega
        · norm_num
          omega
      rw [Option.map_some]
      simp only [Leaf.of, Option.some.injEq, Leaf.mk.injEq, and_true]
      rw [hsize]
      omega
    · rw [ih (by omega), Option.map_map, Option.map_map]
      rfl
    · rfl

theorem any_user_of_pageNo {z : ℕ} (h : pageNo y = pageNo z) :
    (walk m root y).any Leaf.user = (walk m root z).any Leaf.user := by
  rw [walk, walkAt_of_pageNo h le_rfl, Option.any_map]
  rfl

/-- The pages of memory that the user reaches through `n` pages from address `a` on. -/
def userFrames (w : ℕ → Option Leaf) (a n : ℕ) : List ℕ :=
  (List.range n).flatMap fun j =>
    ((w (a + j * 4096)).filter Leaf.user).toList.map fun l => l.addr / 4096

theorem userFrames_succ (w : ℕ → Option Leaf) (a n : ℕ) : userFrames w a (n + 1) =
    (((w a).filter Leaf.user).toList.map fun l => l.addr / 4096) ++ userFrames w (a + 4096) n := by
  have hnext : ∀ k, a + 4096 + k * 4096 = a + (k + 1) * 4096 := fun k => by ring
  simp only [userFrames, List.range_succ_eq_map, List.flatMap_cons, List.flatMap_map, hnext,
    Nat.zero_mul, Nat.add_zero, Nat.succ_eq_add_one]

/-- **The loop of `vm_unmap` over a range.**  The user loses the pages of the range, every other page
stays, and what is freed are the pages of memory behind them. -/
structure UnmapsRange (root a n : ℕ) (m : PhysMem) (r : PhysMem × List ℕ) : Prop where
  inv : PageTables r.1 root
  nodes : ∀ y k, tables.nodeAt r.1 root y k = tables.nodeAt m root y k
  gone : ∀ y, InRange a n y → (walk m root y).any Leaf.user = true → walk r.1 root y = none
  stay : ∀ y, ¬ (InRange a n y ∧ (walk m root y).any Leaf.user = true) →
    walk r.1 root y = walk m root y
  freed : n ≤ 2 ^ 36 → r.2 = userFrames (walk m root) a n
  changed : ∀ f, ¬ IsTable m root f → r.1 f = m f

theorem unmapped_of_ne {w : ℕ → Option Leaf} (h : pageNo y ≠ pageNo a) : unmapped w a y = w y := by
  rw [unmapped, remap_of_ne _ _ h, ite_self]

theorem unmapLoop_range : ∀ {n fuel a : ℕ} {m : PhysMem}, n < fuel → a % 4096 = 0 →
    a + n * 4096 < 2 ^ 64 → PageTables m root →
    ∃ r, unmapLoop root (a + n * 4096) fuel a m = some r ∧ UnmapsRange root a n m r := by
  intro n
  induction n with
  | zero =>
    intro fuel a m hf _ _ h
    obtain ⟨fuel, rfl⟩ := Nat.exists_eq_succ_of_ne_zero hf.ne'
    refine ⟨(m, []), ?_, h, fun _ _ => rfl, fun y hy => ?_, fun _ _ => rfl, fun _ => rfl,
      fun _ _ => rfl⟩
    · rw [unmapLoop, if_neg (by omega)]
    · obtain ⟨j, hj, -⟩ := hy
      exact absurd hj j.not_lt_zero
  | succ n ih =>
    intro fuel a m hf ha hlt h
    obtain ⟨fuel, rfl⟩ := Nat.exists_eq_succ_of_ne_zero (show fuel ≠ 0 by omega)
    obtain ⟨hinv, hnodes, hwalk, hfree⟩ := unmapPage_spec h a
    have hstop : a + (n + 1) * 4096 = a + 4096 + n * 4096 := by ring
    obtain ⟨r, hr, hspec⟩ := ih (show n < fuel by omega) (show (a + 4096) % 4096 = 0 by omega) (by omega) hinv
    refine ⟨(r.1, (unmapPage m root a).2 ++ r.2), ?_, hspec.inv,
      fun y k => (hspec.nodes y k).trans (hnodes y k), fun y hy hu => ?_, fun y hy => ?_, fun hn => ?_,
      fun f hf => ?_⟩
    · rw [unmapLoop, if_pos (by omega), Nat.mod_eq_of_lt (by omega), hstop]
      dsimp only
      rw [hr]
      rfl
    · by_cases hya : pageNo y = pageNo a
      · -- the page went in this round, and does not come back
        have hgone : walk (unmapPage m root a).1 root y = none := by
          rw [hwalk, unmapped, ← any_user_of_pageNo hya, if_pos hu, remap_of_eq _ _ hya]
        have hstay := hspec.stay y (by rw [hgone]; rintro ⟨-, h⟩; cases h)
        exact hstay.trans hgone
      · have hsame : walk (unmapPage m root a).1 root y = walk m root y :=
          (hwalk y).trans (unmapped_of_ne hya)
        exact hspec.gone y ((inRange_succ.mp hy).resolve_left hya) (by rw [hsame]; exact hu)
    · have hsame : walk (unmapPage m root a).1 root y = walk m root y := by
        by_cases hya : pageNo y = pageNo a
        · rw [hwalk, unmapped, ← any_user_of_pageNo hya, if_neg]
          exact fun hu => hy ⟨inRange_succ.mpr (Or.inl hya), hu⟩
        · exact (hwalk y).trans (unmapped_of_ne hya)
      refine (hspec.stay y ?_).trans hsame
      rw [hsame]
      exact fun hu => hy ⟨inRange_succ.mpr (Or.inr hu.1), hu.2⟩
    · show (unmapPage m root a).2 ++ r.2 = _
      rw [hfree, hspec.freed (by omega), userFrames_succ]
      congr 1
      -- the other pages of the range are other pages
      refine List.flatMap_congr fun j hj => ?_
      rw [List.mem_range] at hj
      have hne : pageNo (a + 4096 + j * 4096) ≠ pageNo a := by
        have hne' := pageNo_ne (a := a) (Nat.succ_pos j) (by omega) ha
        rw [Nat.zero_mul, Nat.add_zero] at hne'
        rw [show a + 4096 + j * 4096 = a + (j + 1) * 4096 by ring]
        exact hne'.symm
      rw [hwalk, unmapped_of_ne hne]
    · refine (hspec.changed f ?_).trans (unmapPage_of_not_table hf)
      rintro ⟨y, k, hy⟩
      exact hf ⟨y, k, (hnodes y k).symm.trans hy⟩

end

end BananaOS.Vm
