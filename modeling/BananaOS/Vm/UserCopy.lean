import BananaOS.Vm.PageTable

/-!
# Copies to and from a user

`vm_copy_to_user` and `vm_copy_from_user` are what almost every system call passes its user pointers
to.  They translate the address page by page with `vm_translate`, which asks whether a page is mapped
and not for whom.  The kernel's own pages are mapped in every address space, for the supervisor, so
they pass; so does a page the user may only read; and so does an address that is not canonical, since
the bits above bit 47 are not looked at.
-/

namespace BananaOS.Vm

/-! ## Bytes of words -/

variable {k va : ℕ}

theorem byteAt_ofBytes (b : ℕ → Byte) (hk : k < 8) : byteAt (ofBytes b) k = b k := by
  unfold byteAt ofBytes
  interval_cases k
  · repeat rw [BitVec.extractLsb'_append_eq_of_add_le (by decide)]
    exact BitVec.extractLsb'_eq_self
  -- the bytes above are split off first, then those below
  all_goals
    repeat rw [BitVec.extractLsb'_append_eq_of_add_le (by decide)]
    rw [BitVec.extractLsb'_append_eq_of_le (by decide)]
    exact BitVec.extractLsb'_eq_self

theorem ofBytes_byteAt (w : Word) : ofBytes (byteAt w) = w := by
  refine BitVec.eq_of_getLsbD_eq fun i hi => ?_
  simp only [ofBytes, byteAt, BitVec.getLsbD_append, BitVec.getLsbD_extractLsb']
  split_ifs <;> (rw [decide_eq_true (by omega), Bool.true_and]; congr 1; omega)

section

variable {m m' : PhysMem} {a n x : ℕ} {src : ℕ → Byte}

theorem byte_setBytes : byte (setBytes m a n src) x =
    if a ≤ x ∧ x < a + n then src (x - a) else byte m x := by
  have hx : x / 4096 * 4096 + x % 4096 / 8 * 8 + x % 8 = x := by omega
  rw [byte, setBytes, byteAt_ofBytes _ (Nat.mod_lt _ (by decide))]
  simp only [hx]
  rfl

theorem setBytes_of_apart {f i : ℕ} (h : ∀ k < 8, ¬ (a ≤ f * 4096 + i * 8 + k ∧
    f * 4096 + i * 8 + k < a + n)) : setBytes m a n src f i = m f i := by
  have hb : ∀ k < 8, byteAt (setBytes m a n src f i) k = byteAt (m f i) k := by
    intro k hk
    rw [setBytes, byteAt_ofBytes _ hk]
    exact if_neg (h k hk)
  rw [← ofBytes_byteAt (setBytes m a n src f i), ← ofBytes_byteAt (m f i)]
  simp only [ofBytes]
  rw [hb 0 (by decide), hb 1 (by decide), hb 2 (by decide), hb 3 (by decide), hb 4 (by decide),
    hb 5 (by decide), hb 6 (by decide), hb 7 (by decide)]

theorem setBytes_of_page {f i : ℕ} (hin : a % 4096 + n ≤ 4096) (hf : f ≠ a / 4096) (hi : i < 512) :
    setBytes m a n src f i = m f i := by
  refine setBytes_of_apart fun k hk hc => hf ?_
  omega

/-! ## What a translation depends on -/

/-- The entries that are read for an address, from table `t` with `n` levels to go. -/
def visitsAt (m : PhysMem) : ℕ → ℕ → ℕ → List (ℕ × ℕ)
  | 0, _, _ => []
  | n + 1, t, va => (t, idx n va) ::
    if ¬ has (m t (idx n va)) ptePresent then []
    else if n = 0 ∨ (has (m t (idx n va)) pteHuge ∧ n < 3) then []
    else visitsAt m n (frameOf (m t (idx n va))) va

def visits (m : PhysMem) (root va : ℕ) : List (ℕ × ℕ) := visitsAt m 4 root va

theorem idx_lt (level va : ℕ) : idx level va < 512 := Nat.mod_lt _ (by decide)

theorem mem_visitsAt_lt {e : ℕ × ℕ} : ∀ {n t : ℕ}, e ∈ visitsAt m n t va → e.2 < 512 := by
  intro n
  induction n with
  | zero => exact fun he => absurd he List.not_mem_nil
  | succ n ih =>
    intro t he
    rw [visitsAt] at he
    rcases List.mem_cons.mp he with rfl | he
    · exact idx_lt n va
    · split_ifs at he
      · exact absurd he List.not_mem_nil
      · exact ih he
      · exact absurd he List.not_mem_nil

theorem walkAt_congr : ∀ {n t : ℕ}, (∀ e ∈ visitsAt m n t va, m' e.1 e.2 = m e.1 e.2) →
    walkAt m' n t va = walkAt m n t va := by
  intro n
  induction n with
  | zero => exact fun _ => rfl
  | succ n ih =>
    intro t h
    have he : m' t (idx n va) = m t (idx n va) := h (t, idx n va) List.mem_cons_self
    simp only [walkAt, he]
    split_ifs with h1 h2
    · rfl
    · rw [ih fun e hmem => h e (List.mem_cons_of_mem _ ?_)]
      rwa [if_neg (not_not.mpr h1), if_neg h2]
    · rfl

theorem vmTranslate_eq (m : PhysMem) (root va : ℕ) :
    vmTranslate m root va = ((walk m root va).map Leaf.addr).getD 0 := by
  have hmap : ∀ (e : Word) (o : Option Leaf),
      ((o.map (Leaf.under e)).map Leaf.addr).getD 0 = (o.map Leaf.addr).getD 0 := by
    intro e o
    cases o <;> rfl
  simp only [vmTranslate, walk]
  rw [walkAt]
  by_cases h4 : has (m root (idx 3 va)) ptePresent
  · rw [if_neg (not_not.mpr h4), if_neg (not_not.mpr h4),
      if_neg (not_or.mpr ⟨by decide, fun h => absurd h.2 (by decide)⟩), hmap, walkAt]
    generalize m (frameOf (m root (idx 3 va))) (idx 2 va) = e3
    by_cases h3 : has e3 ptePresent
    · rw [if_neg (not_not.mpr h3), if_neg (not_not.mpr h3)]
      by_cases hh3 : has e3 pteHuge
      · rw [if_pos hh3, if_pos (.inr ⟨hh3, by decide⟩)]
        rfl
      · rw [if_neg hh3, if_neg (not_or.mpr ⟨by decide, fun h => hh3 h.1⟩), hmap, walkAt]
        generalize m (frameOf e3) (idx 1 va) = e2
        by_cases h2 : has e2 ptePresent
        · rw [if_neg (not_not.mpr h2), if_neg (not_not.mpr h2)]
          by_cases hh2 : has e2 pteHuge
          · rw [if_pos hh2, if_pos (.inr ⟨hh2, by decide⟩)]
            rfl
          · rw [if_neg hh2, if_neg (not_or.mpr ⟨by decide, fun h => hh2 h.1⟩), hmap, walkAt]
            by_cases h1 : has (m (frameOf e2) (idx 0 va)) ptePresent
            · rw [if_neg (not_not.mpr h1), if_neg (not_not.mpr h1), if_pos (.inl rfl)]
              rfl
            · rw [if_pos h1, if_pos h1]
              rfl
        · rw [if_pos h2, if_pos h2]
          rfl
    · rw [if_pos h3, if_pos h3]
      rfl
  · rw [if_pos h4, if_pos h4]
    rfl

theorem idx_add (h : va % 4096 + k < 4096) (level : ℕ) : idx level (va + k) = idx level va := by
  have hdiv : (va + k) / 4096 = va / 4096 := by omega
  rw [idx, idx, pow_add, ← Nat.div_div_eq_div_mul, ← Nat.div_div_eq_div_mul]
  exact congrArg (· / 2 ^ (9 * level) % 512) hdiv

theorem mod_add (h : va % 4096 + k < 4096) (level : ℕ) :
    (va + k) % 2 ^ (12 + 9 * level) = va % 2 ^ (12 + 9 * level) + k := by
  have hpow : (2 : ℕ) ^ (12 + 9 * level) = 4096 * 2 ^ (9 * level) := by rw [pow_add]; rfl
  have hpos : 0 < (2 : ℕ) ^ (9 * level) := Nat.two_pow_pos _
  have hva := Nat.div_add_mod va (2 ^ (12 + 9 * level))
  have hlow : va % 2 ^ (12 + 9 * level) % 4096 = va % 4096 := by
    rw [hpow]
    exact Nat.mod_mul_right_mod va 4096 _
  have hlt : va % 2 ^ (12 + 9 * level) < 4096 * 2 ^ (9 * level) := by
    rw [← hpow]
    exact Nat.mod_lt _ (Nat.two_pow_pos _)
  have hsmall : va % 2 ^ (12 + 9 * level) + k < 2 ^ (12 + 9 * level) := by
    have hd : va % 2 ^ (12 + 9 * level) / 4096 < 2 ^ (9 * level) :=
      Nat.div_lt_of_lt_mul hlt
    generalize va % 2 ^ (12 + 9 * level) = r at *
    rw [hpow]
    omega
  rw [Nat.add_mod, Nat.mod_eq_of_lt (show k < 2 ^ (12 + 9 * level) by omega),
    Nat.mod_eq_of_lt hsmall]

theorem walkAt_add (h : va % 4096 + k < 4096) : ∀ {n t : ℕ},
    walkAt m n t (va + k) = (walkAt m n t va).map fun l => { l with addr := l.addr + k } := by
  intro n
  induction n with
  | zero => exact fun {_} => rfl
  | succ n ih =>
    intro t
    simp only [walkAt, idx_add h]
    split_ifs
    · rw [Option.map_some, Leaf.of, Leaf.of, mod_add h, Nat.add_assoc]
    · rw [ih, Option.map_map, Option.map_map]
      rfl
    · rfl

theorem vmTranslate_add {root : ℕ} (h : va % 4096 + k < 4096) (h0 : vmTranslate m root va ≠ 0) :
    vmTranslate m root (va + k) = vmTranslate m root va + k := by
  rw [vmTranslate_eq, vmTranslate_eq, walk, walk, walkAt_add h] at *
  rcases hw : walkAt m 4 root va with _ | l
  · rw [hw] at h0
    exact absurd rfl h0
  · rfl

theorem walkAt_addr_mod : ∀ {n t : ℕ} {l : Leaf}, walkAt m n t va = some l →
    l.addr % 4096 = va % 4096 := by
  intro n
  induction n with
  | zero => exact fun h => nomatch h
  | succ n ih =>
    intro t l h
    simp only [walkAt] at h
    split_ifs at h
    · obtain rfl := Option.some.inj h
      have hlow : va % 2 ^ (12 + 9 * n) % 4096 = va % 4096 := by
        rw [pow_add]
        exact Nat.mod_mul_right_mod va 4096 _
      simp only [Leaf.of]
      omega
    · obtain ⟨l', hl', rfl⟩ := Option.map_eq_some_iff.mp h
      have hmod := ih hl'
      exact hmod

theorem vmTranslate_mod {root : ℕ} (h0 : vmTranslate m root va ≠ 0) :
    vmTranslate m root va % 4096 = va % 4096 := by
  rw [vmTranslate_eq] at h0 ⊢
  rcases hw : walk m root va with _ | l
  · rw [hw] at h0
    exact absurd rfl h0
  · exact walkAt_addr_mod hw

end

/-! ## What a user may reach -/

def Canonical (va : ℕ) : Prop := va < 2 ^ 47 ∨ 2 ^ 64 - 2 ^ 47 ≤ va

def UserPage (m : PhysMem) (root va : ℕ) (w : Bool) : Prop :=
  Canonical va ∧ ∃ l, walk m root va = some l ∧ l.user = true ∧ (w = true → l.write = true)

def UserFrame (m : PhysMem) (root f : ℕ) : Prop :=
  ∃ va l, Canonical va ∧ walk m root va = some l ∧ l.user = true ∧ l.addr / 4096 = f

def TablesApart (m : PhysMem) (root : ℕ) : Prop :=
  ∀ va, ∀ e ∈ visits m root va, ¬ UserFrame m root e.1

def target (m : PhysMem) (root vaddr off : ℕ) : ℕ := vmTranslate m root ((vaddr + off) % 2 ^ 64)

def Reached (m : PhysMem) (root vaddr off : ℕ) : Prop :=
  ∀ k ≤ off, target m root vaddr k ≠ 0

/-- **`vm_copy_to_user` respects the permissions** on a range, whatever is copied. -/
structure CopyToSafe (m : PhysMem) (root vaddr len : ℕ) : Prop where
  success : ∀ src, (vmCopyToUser m (some root) vaddr src len).1 = 0 →
    ∀ off < len, UserPage m root ((vaddr + off) % 2 ^ 64) true
  writes : ∀ src x, byte (vmCopyToUser m (some root) vaddr src len).2 x ≠ byte m x →
    UserFrame m root (x / 4096)

/-- **`vm_copy_from_user` respects the permissions** on a range. -/
def CopyFromSafe (m : PhysMem) (root vaddr len : ℕ) : Prop :=
  ∀ dst, (vmCopyFromUser m (some root) dst vaddr len).1 = 0 →
    ∀ off < len, UserPage m root ((vaddr + off) % 2 ^ 64) false

/-- What the tables have to say about the range: if all of it is mapped, it is mapped for the user,
and as far as it is mapped, the pages behind it are the user's. -/
structure WritableRange (m : PhysMem) (root vaddr len : ℕ) : Prop where
  mapped : (∀ off < len, target m root vaddr off ≠ 0) →
    ∀ off < len, UserPage m root ((vaddr + off) % 2 ^ 64) true
  reached : ∀ off < len, Reached m root vaddr off → UserFrame m root (target m root vaddr off / 4096)

def ReadableRange (m : PhysMem) (root vaddr len : ℕ) : Prop :=
  (∀ off < len, target m root vaddr off ≠ 0) →
    ∀ off < len, UserPage m root ((vaddr + off) % 2 ^ 64) false

/-! ## The loops -/

def SameTables (m₀ m : PhysMem) (root : ℕ) : Prop :=
  ∀ va, ∀ e ∈ visits m₀ root va, m e.1 e.2 = m₀ e.1 e.2

section

variable {m₀ m : PhysMem} {root vaddr len off fuel : ℕ} {src : ℕ → Byte}

theorem SameTables.translate (h : SameTables m₀ m root) (va : ℕ) :
    vmTranslate m root va = vmTranslate m₀ root va := by
  rw [vmTranslate_eq, vmTranslate_eq, walk, walk, walkAt_congr (h va)]

theorem SameTables.setBytes (h : SameTables m₀ m root) (src : ℕ → Byte)
    (hap : TablesApart m₀ root) {a n : ℕ} (hin : a % 4096 + n ≤ 4096) (hf : UserFrame m₀ root (a / 4096)) :
    SameTables m₀ (Vm.setBytes m a n src) root := by
  intro va e he
  have hne : e.1 ≠ a / 4096 := fun hc => hap va e he (hc ▸ hf)
  rw [setBytes_of_page hin hne (mem_visitsAt_lt he), h va e he]

def chunkAt (vaddr len off : ℕ) : ℕ := min (4096 - (vaddr + off) % 2 ^ 64 % 4096) (len - off)

theorem chunkAt_pos (vaddr : ℕ) (h : off < len) : 0 < chunkAt vaddr len off := by
  unfold chunkAt
  omega

theorem target_of_mem (h1 : off ≤ k) (h2 : k < off + chunkAt vaddr len off)
    (h0 : target m root vaddr off ≠ 0) :
    target m root vaddr k = target m root vaddr off + (k - off) := by
  unfold chunkAt at h2
  have hpage : (vaddr + off) % 2 ^ 64 % 4096 + (k - off) < 4096 := by omega
  have hsum : (vaddr + k) % 2 ^ 64 = (vaddr + off) % 2 ^ 64 + (k - off) := by omega
  rw [target, hsum, vmTranslate_add hpage h0]
  rfl

theorem target_page (len : ℕ) (h0 : target m root vaddr off ≠ 0) :
    target m root vaddr off % 4096 + chunkAt vaddr len off ≤ 4096 := by
  have := vmTranslate_mod h0
  unfold chunkAt target
  omega

theorem copyToLoop_round (h : SameTables m₀ m root) (hoff : off < len) :
    copyToLoop root vaddr len src (fuel + 1) off m =
      if target m₀ root vaddr off = 0 then (-1, m)
      else copyToLoop root vaddr len src fuel (off + chunkAt vaddr len off)
        (setBytes m (target m₀ root vaddr off) (chunkAt vaddr len off) fun k => src (off + k)) := by
  rw [copyToLoop, if_pos hoff]
  simp only [h.translate]
  rfl

theorem copyToLoop_spec (hap : TablesApart m₀ root) : ∀ {fuel off : ℕ} {m : PhysMem},
    len - off ≤ fuel → SameTables m₀ m root →
    (∀ k, off ≤ k → k < len → (∀ j, off ≤ j → j ≤ k → target m₀ root vaddr j ≠ 0) →
      UserFrame m₀ root (target m₀ root vaddr k / 4096)) →
    ((copyToLoop root vaddr len src fuel off m).1 = 0 ↔
      ∀ k, off ≤ k → k < len → target m₀ root vaddr k ≠ 0) ∧
    ∀ x, byte (copyToLoop root vaddr len src fuel off m).2 x ≠ byte m x →
      UserFrame m₀ root (x / 4096) := by
  intro fuel
  induction fuel with
  | zero =>
    intro off m hfuel _ _
    exact ⟨iff_of_true rfl fun k h1 h2 => absurd h2 (by omega), fun x hx => absurd rfl hx⟩
  | succ fuel ih =>
    intro off m hfuel hsame huser
    by_cases hoff : off < len
    · rw [copyToLoop_round hsame hoff]
      by_cases h0 : target m₀ root vaddr off = 0
      · rw [if_pos h0]
        exact ⟨iff_of_false (by simp) fun h => h off (le_refl _) hoff h0, fun x hx => absurd rfl hx⟩
      · rw [if_neg h0]
        have hpos := chunkAt_pos vaddr hoff
        have hpage := target_page len h0
        have hframe : UserFrame m₀ root (target m₀ root vaddr off / 4096) :=
          huser off (le_refl _) hoff fun j h1 h2 => by
            rw [show j = off by omega]
            exact h0
        obtain ⟨hsucc, hwrites⟩ := ih (show len - (off + chunkAt vaddr len off) ≤ fuel by omega)
          (hsame.setBytes (fun k => src (off + k)) hap hpage hframe) fun k h1 h2 h3 =>
            huser k (by omega) h2 fun j hj1 hj2 => by
              by_cases hj : j < off + chunkAt vaddr len off
              · rw [target_of_mem hj1 hj h0]
                omega
              · exact h3 j (not_lt.mp hj) hj2
        refine ⟨hsucc.trans ⟨fun h k h1 h2 => ?_, fun h k h1 h2 => h k (by omega) h2⟩,
          fun x hx => ?_⟩
        · by_cases hk : k < off + chunkAt vaddr len off
          · rw [target_of_mem h1 hk h0]
            omega
          · exact h k (not_lt.mp hk) h2
        · by_cases hin : target m₀ root vaddr off ≤ x ∧
            x < target m₀ root vaddr off + chunkAt vaddr len off
          · -- a byte of this chunk
            rw [show x / 4096 = target m₀ root vaddr off / 4096 by omega]
            exact hframe
          · refine hwrites x ?_
            rwa [byte_setBytes, if_neg hin]
    · rw [copyToLoop, if_neg hoff]
      exact ⟨iff_of_true rfl fun k h1 h2 => absurd h2 (by omega), fun x hx => absurd rfl hx⟩

theorem byte_copyToLoop_of_eq {c : Byte} {x : ℕ} : ∀ {fuel off : ℕ} {m : PhysMem}, byte m x = c →
    byte (copyToLoop root vaddr len (fun _ => c) fuel off m).2 x = c := by
  intro fuel
  induction fuel with
  | zero => exact fun h => h
  | succ fuel ih =>
    intro off m h
    simp only [copyToLoop]
    split_ifs
    · exact h
    · refine ih ?_
      rw [byte_setBytes]
      split_ifs
      · rfl
      · exact h
    · exact h

theorem byte_copyToLoop_of_reached (hap : TablesApart m₀ root) {c : Byte} {bad : ℕ} (hbad : bad < len) :
    ∀ {fuel off : ℕ} {m : PhysMem}, len - off ≤ fuel → SameTables m₀ m root → off ≤ bad →
    (∀ k, off ≤ k → k ≤ bad → target m₀ root vaddr k ≠ 0) →
    (∀ k, off ≤ k → k < bad → UserFrame m₀ root (target m₀ root vaddr k / 4096)) →
    byte (copyToLoop root vaddr len (fun _ => c) fuel off m).2 (target m₀ root vaddr bad) = c := by
  intro fuel
  induction fuel with
  | zero => exact fun h _ h' => absurd h (by omega)
  | succ fuel ih =>
    intro off m hfuel hsame hle hreach huser
    have hoff : off < len := by omega
    have h0 := hreach off (le_refl _) hle
    have hpos := chunkAt_pos vaddr hoff
    rw [copyToLoop_round hsame hoff, if_neg h0]
    by_cases hin : bad < off + chunkAt vaddr len off
    · -- the chunk covers it
      refine byte_copyToLoop_of_eq ?_
      have hadd := target_of_mem hle hin h0
      rw [byte_setBytes, if_pos (by omega)]
    · refine ih (by omega) (hsame.setBytes _ hap (target_page len h0) (huser off (le_refl _) (by omega)))
        (by omega) (fun k h1 h2 => hreach k (by omega) h2) fun k h1 h2 => huser k (by omega) h2

theorem copyFromLoop_spec : ∀ {fuel off : ℕ} {dst : ℕ → Byte}, len - off ≤ fuel →
    ((copyFromLoop m root vaddr len fuel off dst).1 = 0 ↔
      ∀ k, off ≤ k → k < len → target m root vaddr k ≠ 0) := by
  intro fuel
  induction fuel with
  | zero =>
    intro off dst hfuel
    exact iff_of_true rfl fun k h1 h2 => absurd h2 (by omega)
  | succ fuel ih =>
    intro off dst hfuel
    rw [copyFromLoop]
    by_cases hoff : off < len
    · rw [if_pos hoff]
      by_cases h0 : target m root vaddr off = 0
      · refine iff_of_false ?_ fun h => h off (le_refl _) hoff h0
        have h0' : vmTranslate m root ((vaddr + off) % 2 ^ 64) = 0 := h0
        simp only [if_pos h0']
        exact fun h => absurd h (by simp)
      · have hpos := chunkAt_pos vaddr hoff
        have h0' : ¬ vmTranslate m root ((vaddr + off) % 2 ^ 64) = 0 := h0
        simp only [if_neg h0']
        refine (ih (show len - (off + chunkAt vaddr len off) ≤ fuel by omega)).trans
          ⟨fun h k h1 h2 => ?_, fun h k h1 h2 => h k (by omega) h2⟩
        by_cases hk : k < off + chunkAt vaddr len off
        · rw [target_of_mem h1 hk h0]
          omega
        · exact h k (not_lt.mp hk) h2
    · rw [if_neg hoff]
      exact iff_of_true rfl fun k h1 h2 => absurd h2 (by omega)

/-! ## The condition -/

theorem sameTables_refl (m : PhysMem) (root : ℕ) : SameTables m m root := fun _ _ _ => rfl

/-- **The copies respect the permissions exactly if the range has no other pages**, for every address
space that does not map its own tables for the user, every address and every length. -/
theorem user_copies_safe_iff (hap : TablesApart m root) (vaddr len : ℕ) :
    (CopyToSafe m root vaddr len ↔ WritableRange m root vaddr len) ∧
      (CopyFromSafe m root vaddr len ↔ ReadableRange m root vaddr len) := by
  have hspec : (∀ off < len, Reached m root vaddr off →
      UserFrame m root (target m root vaddr off / 4096)) → ∀ src : ℕ → Byte,
      ((copyToLoop root vaddr len src len 0 m).1 = 0 ↔
        ∀ k, 0 ≤ k → k < len → target m root vaddr k ≠ 0) ∧
      ∀ x, byte (copyToLoop root vaddr len src len 0 m).2 x ≠ byte m x →
        UserFrame m root (x / 4096) := fun hreached src =>
    copyToLoop_spec hap (by omega) (sameTables_refl m root)
      fun k _ hk hreach => hreached k hk fun j hj => hreach j (Nat.zero_le j) hj
  refine ⟨⟨fun h => ?_, fun h => ?_⟩, ⟨fun h => ?_, fun h => ?_⟩⟩
  · have hreached : ∀ off < len, Reached m root vaddr off →
        UserFrame m root (target m root vaddr off / 4096) := by
      -- take the first offset where it fails, and a byte that is not there yet
      intro off
      induction off using Nat.strong_induction_on with
      | _ off ih =>
        intro hoff hreach
        by_contra hno
        have hend := byte_copyToLoop_of_reached (c := byte m (target m root vaddr off) + 1) hap hoff
          (show len - 0 ≤ len by omega) (sameTables_refl m root) (Nat.zero_le off)
          (fun k _ hk => hreach k hk) fun k _ hk =>
            ih k hk (by omega) fun j hj => hreach j (by omega)
        refine hno (h.writes (fun _ => byte m (target m root vaddr off) + 1) _ ?_)
        rw [vmCopyToUser, hend]
        exact fun he => absurd he (by simp)
    refine ⟨fun hall => ?_, hreached⟩
    exact h.success (fun _ => 0) ((hspec hreached _).1.mpr fun k _ hk => hall k hk)
  · refine ⟨fun src hs => h.mapped fun off hoff => ?_, fun src => (hspec h.reached src).2⟩
    exact (hspec h.reached src).1.mp hs off (Nat.zero_le off) hoff
  · intro hall
    refine h (fun _ => 0) ((copyFromLoop_spec (by omega)).mpr fun k _ hk => hall k hk)
  · intro dst hs
    exact h fun off hoff => (copyFromLoop_spec (by omega)).mp hs off (Nat.zero_le off) hoff

end

/-! ## A page of the user, and a page of the kernel -/

/-- An address space with one page, page 5 at address 0, for the user to write. -/
def onePage : PhysMem := fun t i => if i = 0 ∧ 1 ≤ t ∧ t ≤ 4 then tableEntry (t + 1) else 0

theorem walkAt_onePage : ∀ {n t : ℕ}, 1 ≤ t → n + t = 5 →
    (∀ l, walkAt onePage n t va = some l → l.addr / 4096 = 5) ∧
      ∀ e ∈ visitsAt onePage n t va, e.1 < 5 := by
  intro n
  induction n with
  | zero => exact fun _ _ => ⟨(fun l h => nomatch h), fun e he => absurd he List.not_mem_nil⟩
  | succ n ih =>
    intro t h1 h5
    have hentry : ∀ i, onePage t i = if i = 0 then tableEntry (t + 1) else 0 := by
      intro i
      by_cases hi : i = 0
      · rw [onePage, if_pos ⟨hi, h1, by omega⟩, if_pos hi]
      · rw [onePage, if_neg fun hc => hi hc.1, if_neg hi]
    have ht : has (tableEntry (t + 1)) ptePresent ∧ ¬ has (tableEntry (t + 1)) pteHuge ∧
        frameOf (tableEntry (t + 1)) = t + 1 := by
      have h4 : t ≤ 4 := by omega
      interval_cases t <;> decide
    by_cases hi : idx n va = 0
    · simp only [walkAt, visitsAt, hentry, if_pos hi, if_neg (not_not.mpr ht.1)]
      by_cases hn : n = 0
      · rw [if_pos (.inl hn), if_pos (.inl hn)]
        refine ⟨fun l hl => ?_, fun e he => ?_⟩
        · obtain rfl := Option.some.inj hl
          subst hn
          simp only [Leaf.of, ht.2.2]
          omega
        · rw [List.mem_singleton.mp he]
          omega
      · rw [if_neg (not_or.mpr ⟨hn, fun hc => ht.2.1 hc.1⟩),
          if_neg (not_or.mpr ⟨hn, fun hc => ht.2.1 hc.1⟩), ht.2.2]
        obtain ⟨hwalk, hvisits⟩ := ih (t := t + 1) (by omega) (by omega)
        refine ⟨fun l hl => ?_, fun e he => ?_⟩
        · obtain ⟨l', hl', rfl⟩ := Option.map_eq_some_iff.mp hl
          exact hwalk l' hl'
        · rcases List.mem_cons.mp he with rfl | he
          · show t < 5
            omega
          · exact hvisits e he
    · -- every other entry is empty
      simp only [walkAt, visitsAt, hentry, if_neg hi, if_pos (show ¬ has 0 ptePresent by decide)]
      refine ⟨(fun l hl => nomatch hl), fun e he => ?_⟩
      rw [List.mem_singleton.mp he]
      show t < 5
      omega

/-- The first byte of the page can be written. -/
theorem user_copies_safe_onePage : CopyToSafe onePage 1 0 1 := by
  have hap : TablesApart onePage 1 := by
    rintro va e he ⟨va', l, -, hw, -, hf⟩
    have hframe : l.addr / 4096 = 5 := (walkAt_onePage (le_refl 1) rfl).1 l hw
    have htable : e.1 < 5 := (walkAt_onePage (le_refl 1) rfl).2 e he
    omega
  refine (user_copies_safe_iff hap 0 1).1.mpr ⟨fun _ off hoff => ?_, fun off hoff _ => ?_⟩
  · obtain rfl : off = 0 := by omega
    exact ⟨.inl (by decide), ⟨20480, true, true, false⟩, by decide, rfl, fun _ => rfl⟩
  · obtain rfl : off = 0 := by omega
    exact ⟨0, ⟨20480, true, true, false⟩, .inl (by decide), by decide, rfl, by decide⟩

def freshSpace : PhysMem :=
  (vmCreate (fun k => some (0x801 + k)) none ⟨fun _ _ => 0, 0⟩).2.mem

/-- **The kernel's page at `0x1000` is mapped for the supervisor only**, and a byte is copied to it.
-/
theorem copies_to_kernel :
    walk freshSpace 0x801 0x1000 = some ⟨0x1000, true, false, false⟩ ∧
      (vmCopyToUser freshSpace (some 0x801) 0x1000 (fun _ => 0x55) 1).1 = 0 ∧
      byte freshSpace 0x1000 = 0 ∧
      byte (vmCopyToUser freshSpace (some 0x801) 0x1000 (fun _ => 0x55) 1).2 0x1000 = 0x55 ∧
      (vmCopyFromUser freshSpace (some 0x801) (fun _ => 0) 0x1000 1).1 = 0 :=
  ⟨by decide +kernel, by decide +kernel, by decide +kernel, by decide +kernel, by decide +kernel⟩

end BananaOS.Vm
