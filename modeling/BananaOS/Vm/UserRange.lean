import BananaOS.Vm.UserCopy

/-!
# A range of pages of one's own

A program sees its memory through the tables.  When every page of a range has a physical page of its
own, and none of these is a table, the range behaves like an array of bytes: `vm_copy_to_user`
succeeds inside it and stores what it is given, and nothing else in the range changes.  The loaders
rely on that for everything they put into a new address space.
-/

namespace BananaOS.Vm

def userByte (m : PhysMem) (root va : ℕ) : Byte := byte m (vmTranslate m root va)

/-- The addresses from `lo` to `hi` are mapped, each to its own physical address, and no table for
them is in one of these pages. -/
structure OwnRange (m : PhysMem) (root lo hi : ℕ) : Prop where
  hi_le : hi ≤ 2 ^ 64
  mapped : ∀ va, lo ≤ va → va < hi → vmTranslate m root va ≠ 0
  inj : ∀ va va', lo ≤ va → va < hi → lo ≤ va' → va' < hi →
    vmTranslate m root va = vmTranslate m root va' → va = va'
  apart : ∀ va va', lo ≤ va → va < hi → lo ≤ va' → va' < hi →
    ∀ e ∈ visits m root va', e.1 ≠ vmTranslate m root va / 4096

/-- The tables for the addresses from `lo` to `hi` are still those of `m₀`. -/
def SameTablesOn (m₀ m : PhysMem) (root lo hi : ℕ) : Prop :=
  ∀ va, lo ≤ va → va < hi → ∀ e ∈ visits m₀ root va, m e.1 e.2 = m₀ e.1 e.2

section

variable {m₀ m m' : PhysMem} {root lo hi vaddr len va : ℕ}

theorem SameTablesOn.translate (h : SameTablesOn m₀ m root lo hi) (hlo : lo ≤ va) (hhi : va < hi) :
    vmTranslate m root va = vmTranslate m₀ root va := by
  rw [vmTranslate_eq, vmTranslate_eq, walk, walk, walkAt_congr (h va hlo hhi)]

theorem visitsAt_congr {va : ℕ} : ∀ {n t : ℕ}, (∀ e ∈ visitsAt m n t va, m' e.1 e.2 = m e.1 e.2) →
    visitsAt m' n t va = visitsAt m n t va := by
  intro n
  induction n with
  | zero => exact fun _ => rfl
  | succ n ih =>
    intro t h
    have he : m' t (idx n va) = m t (idx n va) := h (t, idx n va) List.mem_cons_self
    simp only [visitsAt, he]
    split_ifs with h1 h2
    · rfl
    · rw [ih fun e hmem => h e (List.mem_cons_of_mem _ ?_)]
      rwa [if_neg (not_not.mpr h1), if_neg h2]
    · rfl

theorem OwnRange.of_sameTables (h : OwnRange m₀ root lo hi) (hs : SameTablesOn m₀ m root lo hi) :
    OwnRange m root lo hi where
  hi_le := h.hi_le
  mapped va hlo hhi := by
    rw [hs.translate hlo hhi]
    exact h.mapped va hlo hhi
  inj va va' hlo hhi hlo' hhi' he := by
    rw [hs.translate hlo hhi, hs.translate hlo' hhi'] at he
    exact h.inj va va' hlo hhi hlo' hhi' he
  apart va va' hlo hhi hlo' hhi' := by
    rw [hs.translate hlo hhi, visits, visitsAt_congr (hs va' hlo' hhi')]
    exact h.apart va va' hlo hhi hlo' hhi'

/-- What a copy of `src` to the range from `vaddr + off` to `vaddr + len` leaves behind. -/
structure Copied (m₀ m : PhysMem) (root lo hi vaddr off len : ℕ) (src : ℕ → Byte) (m' : PhysMem) :
    Prop where
  tables : SameTablesOn m₀ m' root lo hi
  stored : ∀ k, off ≤ k → k < len → byte m' (vmTranslate m₀ root (vaddr + k)) = src k
  frame : ∀ x, (∀ k, off ≤ k → k < len → vmTranslate m₀ root (vaddr + k) ≠ x) →
    byte m' x = byte m x

theorem copyToLoop_own (src : ℕ → Byte) (h : OwnRange m₀ root lo hi) (hlo : lo ≤ vaddr)
    (hhi : vaddr + len ≤ hi) :
    ∀ {fuel off : ℕ} {m : PhysMem}, len - off ≤ fuel → SameTablesOn m₀ m root lo hi →
      ∃ m', copyToLoop root vaddr len src fuel off m = (0, m') ∧
        Copied m₀ m root lo hi vaddr off len src m' := by
  have hle := h.hi_le
  intro fuel
  induction fuel with
  | zero =>
    intro off m hfuel hs
    exact ⟨m, rfl, hs, fun k h1 h2 => absurd h2 (by omega), fun _ _ => rfl⟩
  | succ fuel ih =>
    intro off m hfuel hs
    rw [copyToLoop]
    by_cases hoff : off < len
    · have hva : (vaddr + off) % 2 ^ 64 = vaddr + off := Nat.mod_eq_of_lt (by omega)
      have hmapped := h.mapped (vaddr + off) (by omega) (by omega)
      rw [if_pos hoff, hva]
      dsimp only
      rw [hs.translate (show lo ≤ vaddr + off by omega) (by omega), if_neg hmapped]
      -- the chunk lies in one page, at consecutive physical addresses
      obtain ⟨c, hc⟩ : ∃ c, c = min (4096 - (vaddr + off) % 4096) (len - off) := ⟨_, rfl⟩
      rw [← hc]
      have hchunk : ∀ j < c, vmTranslate m₀ root (vaddr + off + j) =
          vmTranslate m₀ root (vaddr + off) + j := fun j hj => vmTranslate_add (by omega) hmapped
      have hpage : vmTranslate m₀ root (vaddr + off) % 4096 + c ≤ 4096 := by
        rw [vmTranslate_mod hmapped]
        omega
      have hs' : SameTablesOn m₀ (setBytes m (vmTranslate m₀ root (vaddr + off)) c fun k =>
          src (off + k)) root lo hi := by
        intro va h1 h2 e he
        rw [setBytes_of_page hpage (h.apart _ va (by omega) (by omega) h1 h2 e he)
          (mem_visitsAt_lt he)]
        exact hs va h1 h2 e he
      obtain ⟨m', hrun, hcopied⟩ := ih (show len - (off + c) ≤ fuel by omega) hs'
      refine ⟨m', hrun, hcopied.tables, fun k h1 h2 => ?_, fun x hx => ?_⟩
      · by_cases hk : k < off + c
        · -- later chunks go to other addresses
          rw [hcopied.frame _ fun j hj hj' he => ?_, byte_setBytes]
          · have hphys := hchunk (k - off) (by omega)
            rw [show vaddr + off + (k - off) = vaddr + k by omega] at hphys
            rw [hphys, if_pos (by omega)]
            exact congrArg src (by omega)
          · have := h.inj _ _ (by omega) (by omega) (by omega) (by omega) he
            omega
        · exact hcopied.stored k (by omega) h2
      · rw [hcopied.frame x fun k h1 h2 => hx k (by omega) h2, byte_setBytes, if_neg]
        rintro ⟨h1, h2⟩
        refine hx (off + (x - vmTranslate m₀ root (vaddr + off))) (by omega) (by omega) ?_
        rw [← Nat.add_assoc, hchunk _ (by omega)]
        omega
    · rw [if_neg hoff]
      exact ⟨m, rfl, hs, fun k h1 h2 => absurd h2 (by omega), fun _ _ => rfl⟩

theorem OwnRange.copyToUser (h : OwnRange m root lo hi) (hlo : lo ≤ vaddr) (hhi : vaddr + len ≤ hi)
    (src : ℕ → Byte) : ∃ m', vmCopyToUser m (some root) vaddr src len = (0, m') ∧
      OwnRange m' root lo hi ∧
      (∀ va, lo ≤ va → va < hi → userByte m' root va =
        if vaddr ≤ va ∧ va < vaddr + len then src (va - vaddr) else userByte m root va) ∧
      ∀ x, (∀ va, lo ≤ va → va < hi → vmTranslate m root va ≠ x) → byte m' x = byte m x := by
  obtain ⟨m', hrun, hc⟩ := copyToLoop_own src h hlo hhi (le_of_eq (Nat.sub_zero len))
    (fun _ _ _ _ _ => rfl)
  refine ⟨m', hrun, h.of_sameTables hc.tables, fun va h1 h2 => ?_, fun x hx => ?_⟩
  · rw [userByte, userByte, hc.tables.translate h1 h2]
    by_cases hin : vaddr ≤ va ∧ va < vaddr + len
    · rw [if_pos hin, ← hc.stored (va - vaddr) (Nat.zero_le _) (by omega),
        show vaddr + (va - vaddr) = va by omega]
    · rw [if_neg hin]
      refine hc.frame _ fun k _ hk he => hin ?_
      have := h.inj _ _ (by omega) (by omega) h1 h2 he
      omega
  · exact hc.frame x fun k _ hk => hx _ (by omega) (by omega)

theorem copyFromLoop_mapped (hmapped : ∀ k < len, vmTranslate m root ((vaddr + k) % 2 ^ 64) ≠ 0) :
    ∀ {fuel off : ℕ} {dst : ℕ → Byte}, len - off ≤ fuel →
      copyFromLoop m root vaddr len fuel off dst = (0, fun k =>
        if off ≤ k ∧ k < len then userByte m root ((vaddr + k) % 2 ^ 64) else dst k) := by
  intro fuel
  induction fuel with
  | zero =>
    intro off dst hfuel
    refine Prod.ext rfl (funext fun k => ?_)
    exact (if_neg (by omega)).symm
  | succ fuel ih =>
    intro off dst hfuel
    rw [copyFromLoop]
    by_cases hoff : off < len
    · have h0 := hmapped off hoff
      rw [if_pos hoff]
      simp only [if_neg h0]
      obtain ⟨c, hc⟩ : ∃ c, c = min (4096 - (vaddr + off) % 2 ^ 64 % 4096) (len - off) := ⟨_, rfl⟩
      rw [← hc, ih (show len - (off + c) ≤ fuel by omega)]
      refine Prod.ext rfl (funext fun k => ?_)
      dsimp only
      by_cases hin : off ≤ k ∧ k < off + c
      · -- a byte of this chunk, at the same distance from its start
        have hsum : (vaddr + k) % 2 ^ 64 = (vaddr + off) % 2 ^ 64 + (k - off) := by omega
        rw [if_neg (by omega), if_pos hin, if_pos (by omega), userByte, hsum,
          vmTranslate_add (by omega) h0]
      · by_cases hk : off ≤ k ∧ k < len
        · rw [if_pos (by omega), if_pos hk]
        · rw [if_neg (by omega), if_neg hin, if_neg hk]
    · rw [if_neg hoff]
      refine Prod.ext rfl (funext fun k => ?_)
      exact (if_neg (by omega)).symm

theorem vmCopyFromUser_mapped (dst : ℕ → Byte)
    (hmapped : ∀ k < len, vmTranslate m root ((vaddr + k) % 2 ^ 64) ≠ 0) :
    vmCopyFromUser m (some root) dst vaddr len = (0, fun k =>
      if k < len then userByte m root ((vaddr + k) % 2 ^ 64) else dst k) := by
  rw [vmCopyFromUser, copyFromLoop_mapped hmapped (le_of_eq (Nat.sub_zero len))]
  refine Prod.ext rfl (funext fun k => ?_)
  simp only [Nat.zero_le, true_and]

end

end BananaOS.Vm
