import BananaOS.Lib.GuardedRun
import BananaOS.Lib.RadixTree
import BananaOS.Vm.UserCopy

/-!
# Mapping a page

`vm_map_page` walks down three levels of tables and writes one entry at the bottom.  On its way it
changes the tables it meets: a missing one is created, a huge page is replaced by a table of smaller
pages, an existing table is opened for the user.  None of this may be seen by any other page.
-/

namespace BananaOS.Vm

open Function FailState RadixTree GuardedRun

/-! ## The bits of entries -/

variable {e : Word} {f i g : ℕ}

theorem has_or (a b bits : Word) : has (a ||| b) bits ↔ has a bits ∨ has b bits := by
  have hzero : (a ||| b) &&& bits = 0 ↔ a &&& bits = 0 ∧ b &&& bits = 0 := by
    rw [BitVec.and_or_distrib_right]
    exact BitVec.or_eq_zero_iff
  rw [has, has, has, ne_eq, hzero, not_and_or]

theorem has_twoPow (e : Word) {k : ℕ} (hk : k < 64) :
    has e (BitVec.twoPow 64 k) ↔ e.getLsbD k = true := by
  rw [has, BitVec.and_twoPow]
  cases h : e.getLsbD k
  · simp
  · have h0 : BitVec.twoPow 64 k ≠ 0#64 := by
      intro h0
      have hbit := congrArg (·.getLsbD k) h0
      simp [hk] at hbit
    simp [h0]

theorem getLsbD_addrBits (f k : ℕ) :
    (addrBits f).getLsbD k = (decide (k < 64) && (decide (12 ≤ k) && f.testBit (k - 12))) := by
  rw [addrBits, BitVec.getLsbD_ofNat, show (4096 : ℕ) = 2 ^ 12 from rfl,
    Nat.testBit_mul_two_pow]

theorem not_has_addrBits {k : ℕ} (hf : f < 2 ^ 40) (hk : k < 64) (hk' : k < 12 ∨ 52 ≤ k) :
    ¬ has (addrBits f) (BitVec.twoPow 64 k) := by
  rw [has_twoPow _ hk, getLsbD_addrBits]
  rcases hk' with hk' | hk'
  · simp [Nat.not_le.mpr hk']
  · have hbit : f.testBit (k - 12) = false :=
      Nat.testBit_lt_two_pow (hf.trans_le (Nat.pow_le_pow_right (by decide) (by omega)))
    simp [hbit]

section

variable {f : ℕ} (hf : f < 2 ^ 40)

include hf

theorem not_has_write_addrBits : ¬ has (addrBits f) pteWrite :=
  not_has_addrBits hf (k := 1) (by decide) (by decide)

theorem not_has_user_addrBits : ¬ has (addrBits f) pteUser :=
  not_has_addrBits hf (k := 2) (by decide) (by decide)

theorem not_has_huge_addrBits : ¬ has (addrBits f) pteHuge :=
  not_has_addrBits hf (k := 7) (by decide) (by decide)

theorem not_has_nx_addrBits : ¬ has (addrBits f) pteNx :=
  not_has_addrBits hf (k := 63) (by decide) (by decide)

end

theorem frameOf_lt (e : Word) : frameOf e < 2 ^ 40 := (e.extractLsb' 12 40).isLt

theorem frameOf_or (a b : Word) (hb : b.extractLsb' 12 40 = 0) : frameOf (a ||| b) = frameOf a := by
  rw [frameOf, BitVec.extractLsb'_or, hb]
  exact congrArg BitVec.toNat BitVec.or_zero

theorem frameOf_addrBits (hf : f < 2 ^ 40) : frameOf (addrBits f) = f := by
  rw [frameOf, BitVec.extractLsb'_toNat, addrBits, BitVec.toNat_ofNat, Nat.shiftRight_eq_div_pow]
  omega

theorem and_pteAddrMsk (e : Word) : e &&& pteAddrMsk = addrBits (frameOf e) := by
  have hmsk : pteAddrMsk = (BitVec.allOnes 40).setWidth 64 <<< 12 := by decide
  refine BitVec.eq_of_getLsbD_eq fun i hi => ?_
  rw [getLsbD_addrBits, BitVec.getLsbD_and, hmsk, frameOf, BitVec.testBit_toNat,
    BitVec.getLsbD_extractLsb', BitVec.getLsbD_shiftLeft, BitVec.getLsbD_setWidth,
    BitVec.getLsbD_allOnes]
  by_cases h12 : 12 ≤ i
  · rw [Nat.add_sub_cancel' h12]
    have h64 : i - 12 < 64 := by omega
    simp [hi, h12, h64, Nat.not_lt.mpr h12, Bool.and_comm]
  · simp [h12, Nat.lt_of_not_le h12]

theorem addrBits_add (f j n : ℕ) :
    addrBits f + BitVec.ofNat 64 j <<< (n + 12) = addrBits (f + j * 2 ^ n) := by
  have hsum : (f + j * 2 ^ n) * 4096 = f * 4096 + j * 2 ^ (n + 12) := by
    rw [pow_add]
    ring
  apply BitVec.eq_of_toNat_eq
  rw [BitVec.toNat_add, BitVec.toNat_shiftLeft, addrBits, addrBits, BitVec.toNat_ofNat,
    BitVec.toNat_ofNat, BitVec.toNat_ofNat, Nat.shiftLeft_eq, hsum, Nat.mod_mul_mod,
    ← Nat.add_mod]

theorem pteFlags_bits (flags : Word) :
    has (pteFlags flags) ptePresent ∧ (has (pteFlags flags) pteWrite ↔ has flags vmWrite) ∧
      (has (pteFlags flags) pteUser ↔ has flags vmUser) ∧
      (has (pteFlags flags) pteNx ↔ ¬ has flags vmExec) ∧ ¬ has (pteFlags flags) pteHuge ∧
      (pteFlags flags).extractLsb' 12 40 = 0 := by
  rw [pteFlags]
  by_cases hw : has flags vmWrite <;> by_cases hu : has flags vmUser <;>
    by_cases hx : has flags vmExec <;> simp only [hw, hu, hx, if_true, if_false] <;> decide

/-! ## The tree of tables -/

/-- The tables of an address space: depth 0 is the top table, depth 3 the tables of 4 KiB pages.  An
entry above depth 3 that is present and maps no huge page points to a table. -/
def tables : Shape Word ℕ where
  ix d va := idx (3 - d) va
  child d e :=
    if d < 3 ∧ has e ptePresent ∧ ¬ (has e pteHuge ∧ 0 < d) then some (frameOf e) else none

abbrev IsTable (m : PhysMem) (root t : ℕ) : Prop := tables.IsNode m root t

structure EntryOk (d : ℕ) (e : Word) : Prop where
  absent : ¬ has e ptePresent → e = 0
  /-- Huge pages are of the kernel, and aligned. -/
  huge : has e pteHuge → (0 < d ∧ d < 3) ∧ has e pteWrite ∧ ¬ has e pteUser ∧ ¬ has e pteNx ∧
    frameOf e % 2 ^ (9 * (3 - d)) = 0
  /-- Tables restrict neither writing nor execution. -/
  table : tables.child d e ≠ none → has e pteWrite ∧ ¬ has e pteNx

/-- **What holds of the tables of an address space.** -/
structure PageTables (m : PhysMem) (root : ℕ) : Prop where
  tree : tables.IsTree m root
  entry : ∀ ⦃va d t : ℕ⦄, tables.nodeAt m root va d = some t → EntryOk d (m t (idx (3 - d) va))
  /-- An entry with the user bit is below entries with the user bit. -/
  user : ∀ ⦃va d s t : ℕ⦄, tables.nodeAt m root va d = some s →
    tables.nodeAt m root va (d + 1) = some t → has (m t (idx (3 - (d + 1)) va)) pteUser →
    has (m s (idx (3 - d) va)) pteUser

section

variable {m m' : PhysMem} {root va d t : ℕ} {e : Word}

theorem tables_ix (d va : ℕ) : tables.ix d va = idx (3 - d) va := rfl

theorem child_eq_some_iff {c : ℕ} : tables.child d e = some c ↔
    (d < 3 ∧ has e ptePresent ∧ ¬ (has e pteHuge ∧ 0 < d)) ∧ frameOf e = c := by
  simp only [tables, Option.ite_none_right_eq_some, Option.some.injEq]

theorem child_eq_none_iff : tables.child d e = none ↔
    ¬ (d < 3 ∧ has e ptePresent ∧ ¬ (has e pteHuge ∧ 0 < d)) := by
  simp only [tables, ite_eq_right_iff, reduceCtorEq, imp_false]

theorem child_three : tables.child 3 e = none := child_eq_none_iff.mpr fun h => absurd h.1 (by decide)

theorem depth_le (h : tables.nodeAt m root va d = some t) : d ≤ 3 := by
  by_contra hd
  have hnone : tables.nodeAt m root va 4 = none := by
    rcases hs : tables.nodeAt m root va 3 with _ | s
    · exact nodeAt_none_of_le hs (by decide)
    · rw [nodeAt_succ hs, child_three]
  rw [nodeAt_none_of_le hnone (by omega)] at h
  cases h

/-! ## The walk, level by level -/

theorem walkAt_of_child {c : ℕ} (hc : tables.child d (m t (idx (3 - d) va)) = some c) :
    walkAt m (4 - d) t va = (walkAt m (4 - (d + 1)) c va).map (.under (m t (idx (3 - d) va))) := by
  obtain ⟨⟨hd, hp, hh⟩, rfl⟩ := child_eq_some_iff.mp hc
  have hleaf : ¬ (3 - d = 0 ∨ (has (m t (idx (3 - d) va)) pteHuge ∧ 3 - d < 3)) := by
    rintro (h | ⟨h, h'⟩)
    · omega
    · exact hh ⟨h, by omega⟩
  rw [show 4 - d = (3 - d) + 1 by omega, walkAt, if_neg (not_not.mpr hp), if_neg hleaf,
    show 4 - (d + 1) = 3 - d by omega]

theorem walkAt_of_leaf (hd : d ≤ 3) (hc : tables.child d (m t (idx (3 - d) va)) = none) :
    walkAt m (4 - d) t va = if has (m t (idx (3 - d) va)) ptePresent then
      some (.of (m t (idx (3 - d) va)) (2 ^ (12 + 9 * (3 - d))) va) else none := by
  rw [show 4 - d = (3 - d) + 1 by omega, walkAt]
  by_cases hp : has (m t (idx (3 - d) va)) ptePresent
  · have hleaf : 3 - d = 0 ∨ (has (m t (idx (3 - d) va)) pteHuge ∧ 3 - d < 3) := by
      by_contra h
      rw [not_or] at h
      refine child_eq_none_iff.mp hc ⟨by omega, hp, fun hh => h.2 ⟨hh.1, by omega⟩⟩
    rw [if_neg (not_not.mpr hp), if_pos hleaf, if_pos hp]
  · rw [if_pos hp, if_neg hp]

theorem walk_eq_of_below (h : tables.nodeAt m root va d = some t)
    (hup : ∀ k < d, ∀ s, tables.nodeAt m root va k = some s →
      m' s (idx (3 - k) va) = m s (idx (3 - k) va))
    (hbelow : walkAt m' (4 - d) t va = walkAt m (4 - d) t va) :
    walk m' root va = walk m root va := by
  induction d generalizing t with
  | zero =>
    cases h
    exact hbelow
  | succ d ih =>
    obtain ⟨s, hs, hc⟩ := exists_of_nodeAt_succ h
    refine ih hs (fun k hk => hup k (hk.trans d.lt_succ_self)) ?_
    have hsame := hup d d.lt_succ_self s hs
    rw [walkAt_of_child (m := m) hc, walkAt_of_child (m := m') (by rw [hsame]; exact hc), hbelow,
      hsame]

theorem walkAt_eq_of_entries {d t : ℕ} (ht : tables.nodeAt m root va d = some t)
    (h : ∀ k s, d ≤ k → tables.nodeAt m root va k = some s →
      m' s (idx (3 - k) va) = m s (idx (3 - k) va)) :
    walkAt m' (4 - d) t va = walkAt m (4 - d) t va := by
  have hd := depth_le ht
  have hsame := h d t le_rfl ht
  rcases hc : tables.child d (m t (idx (3 - d) va)) with _ | c
  · rw [walkAt_of_leaf hd hc, walkAt_of_leaf (m := m') hd (by rw [hsame]; exact hc), hsame]
  · have hnode : tables.nodeAt m root va (d + 1) = some c := (nodeAt_succ ht).trans hc
    rw [walkAt_of_child hc, walkAt_of_child (m := m') (by rw [hsame]; exact hc), hsame,
      walkAt_eq_of_entries hnode fun k s hk => h k s (d.le_succ.trans hk)]
termination_by 4 - d

theorem walk_eq_of_entries (h : ∀ k s, tables.nodeAt m root va k = some s →
    m' s (idx (3 - k) va) = m s (idx (3 - k) va)) : walk m' root va = walk m root va :=
  walkAt_eq_of_entries (d := 0) rfl fun k s _ => h k s

end

/-! ## Edits of the tables -/

theorem setWord_self (m : PhysMem) (t i : ℕ) (e : Word) : setWord m t i e t i = e := by
  rw [setWord, update_self, update_self]

theorem setWord_of_ne (m : PhysMem) {t s j : ℕ} (e : Word) (h : s ≠ t ∨ j ≠ i) :
    setWord m t i e s j = m s j := by
  rw [setWord]
  by_cases hs : s = t
  · subst hs
    rw [update_self, update_of_ne (h.resolve_left fun h => h rfl)]
  · rw [update_of_ne hs]

def Opened (m : PhysMem) (root va d : ℕ) : Prop :=
  ∀ k < d, ∀ s, tables.nodeAt m root va k = some s → has (m s (idx (3 - k) va)) pteUser

section

variable {m : PhysMem} {root va d t : ℕ} (h : PageTables m root)
  (ht : tables.nodeAt m root va d = some t)

include ht in
theorem edit_setWord (e : Word) :
    Edit tables m (setWord m t (idx (3 - d) va) e) root va d t :=
  ⟨ht, fun _ _ _ hne => setWord_of_ne m e hne⟩

include h ht

theorem PageTables.setWord (hok : EntryOk d e)
    (hchild : tables.child d e = tables.child d (m t (idx (3 - d) va)))
    (hup : has e pteUser → Opened m root va d) (hdown : tables.child d e ≠ none → has e pteUser) :
    PageTables (setWord m t (idx (3 - d) va) e) root := by
  have hedit := edit_setWord ht e
  have hchild' : tables.child d (Vm.setWord m t (idx (3 - d) va) e t (tables.ix d va)) =
      tables.child d (m t (tables.ix d va)) := by
    rw [tables_ix, setWord_self, hchild]
  have hnodes := hedit.nodeAt_eq h.tree hchild'
  -- an entry on some way is the edited one, or it is unchanged
  have hentry : ∀ {y k s}, tables.nodeAt m root y k = some s →
      (k = d ∧ tables.Agree (d + 1) va y ∧ s = t ∧
        Vm.setWord m t (idx (3 - d) va) e s (idx (3 - k) y) = e) ∨
      Vm.setWord m t (idx (3 - d) va) e s (idx (3 - k) y) = m s (idx (3 - k) y) := by
    intro y k s hs
    by_cases hsame : s = t ∧ idx (3 - k) y = idx (3 - d) va
    · obtain ⟨rfl, hix⟩ := hsame
      obtain ⟨rfl, hag⟩ := h.tree ht hs
      refine Or.inl ⟨rfl, agree_succ.mpr ⟨hag, hix.symm⟩, rfl, ?_⟩
      rw [hix, setWord_self]
    · exact Or.inr (setWord_of_ne m e (not_and_or.mp hsame))
  refine ⟨hedit.isTree_of_child_eq h.tree hchild', ?_, ?_⟩
  · intro y k s hs
    rw [hnodes] at hs
    rcases hentry hs with ⟨rfl, -, -, he⟩ | he
    · rw [he]
      exact hok
    · rw [he]
      exact h.entry hs
  · intro y k s u hs hu huser
    rw [hnodes] at hs hu
    rcases hentry hs with ⟨rfl, hag, rfl, he⟩ | he
    · -- the edited entry is the upper one; it has a table behind it
      rw [he]
      refine hdown ?_
      rw [hchild, ← tables_ix, (agree_succ.mp hag).2, ← nodeAt_succ hs, hu]
      exact Option.some_ne_none u
    · rw [he]
      rcases hentry hu with ⟨rfl, hag, rfl, he'⟩ | he'
      · -- the edited entry is the lower one
        rw [he'] at huser
        have hag' := agree_succ.mp (Agree.mono hag (k + 1).le_succ)
        have hs' : tables.nodeAt m root va k = some s := by
          rw [nodeAt_eq_of_agree hag'.1, hs]
        have hopen := hup huser k k.lt_succ_self s hs'
        rwa [← tables_ix, hag'.2] at hopen
      · rw [he'] at huser
        exact h.user hs hu huser

end

/-! ## New tables -/

theorem tableEntry_eq (g : ℕ) : tableEntry g = addrBits g ||| 0x7 := by
  rw [tableEntry, BitVec.or_assoc, BitVec.or_assoc]
  rfl

theorem frameOf_tableEntry (hg : g < 2 ^ 40) : frameOf (tableEntry g) = g := by
  rw [tableEntry_eq, frameOf_or _ _ (by decide), frameOf_addrBits hg]

theorem has_tableEntry {bits : Word} (h : has 0x7 bits) : has (tableEntry g) bits := by
  rw [tableEntry_eq, has_or]
  exact Or.inr h

section

variable {g : ℕ} (hg : g < 2 ^ 40)

include hg

theorem not_huge_tableEntry : ¬ has (tableEntry g) pteHuge := by
  rw [tableEntry_eq, has_or]
  exact not_or.mpr ⟨not_has_huge_addrBits hg, by decide⟩

theorem not_nx_tableEntry : ¬ has (tableEntry g) pteNx := by
  rw [tableEntry_eq, has_or]
  exact not_or.mpr ⟨not_has_nx_addrBits hg, by decide⟩

theorem child_tableEntry {d : ℕ} (hd : d < 3) : tables.child d (tableEntry g) = some g :=
  child_eq_some_iff.mpr ⟨⟨hd, has_tableEntry (by decide), fun h => not_huge_tableEntry hg h.1⟩,
    frameOf_tableEntry hg⟩

theorem entryOk_tableEntry (d : ℕ) : EntryOk d (tableEntry g) where
  absent h := absurd (has_tableEntry (by decide)) h
  huge h := absurd h (not_huge_tableEntry hg)
  table _ := ⟨has_tableEntry (by decide), not_nx_tableEntry hg⟩

theorem under_tableEntry (l : Leaf) : l.under (tableEntry g) = l := by
  have hw : has (tableEntry g) pteWrite := has_tableEntry (by decide)
  have hu : has (tableEntry g) pteUser := has_tableEntry (by decide)
  simp only [Leaf.under, hw, hu, not_nx_tableEntry hg, decide_true, decide_false, Bool.true_and,
    Bool.false_or]

end

def leafOf (d : ℕ) (e : Word) (va : ℕ) : Option Leaf :=
  if has e ptePresent then some (.of e (2 ^ (12 + 9 * (3 - d))) va) else none

/-- The words `w` are a table that can stand below depth `d` for the entry `e`. -/
structure StandsFor (d : ℕ) (e : Word) (w : ℕ → Word) : Prop where
  leaf : ∀ i, tables.child (d + 1) (w i) = none
  ok : ∀ i < 512, EntryOk (d + 1) (w i)
  same : ∀ va, leafOf (d + 1) (w (idx (3 - (d + 1)) va)) va = leafOf d e va

/-- The table that `vm_map_page` puts in the place of an entry. -/
def partAt : ℕ → Option (Word → ℕ → Word)
  | 0 => none
  | 1 => some splitGiga
  | _ => some splitMega

theorem entryOk_zero (d : ℕ) : EntryOk d 0 where
  absent _ := rfl
  huge h := absurd h (by decide)
  table h := absurd (child_eq_none_iff.mpr fun h' => absurd h'.2.1 (by decide)) h

theorem standsFor_zero (d : ℕ) : StandsFor d 0 fun _ => 0 where
  leaf _ := child_eq_none_iff.mpr fun h => absurd h.2.1 (by decide)
  ok _ _ := entryOk_zero (d + 1)
  same _ := rfl

theorem standsFor_split {d : ℕ} {c : Word} {w : ℕ → Word} (hd : d < 3) (hok : EntryOk d e)
    (hp : has e ptePresent) (hh : has e pteHuge)
    (hw : ∀ i, w i = addrBits (frameOf e + i * 2 ^ (9 * (3 - (d + 1)))) ||| c)
    (hcp : has c ptePresent) (hcw : has c pteWrite) (hcu : ¬ has c pteUser) (hcx : ¬ has c pteNx)
    (hch : has c pteHuge ↔ d + 1 < 3) (hcf : c.extractLsb' 12 40 = 0) : StandsFor d e w := by
  obtain ⟨⟨hd0, -⟩, hew, heu, hex, hal⟩ := hok.huge hh
  have hpow : (2 : ℕ) ^ (9 * (3 - d)) = 512 * 2 ^ (9 * (3 - (d + 1))) := by
    rw [show 9 * (3 - d) = 9 + 9 * (3 - (d + 1)) by omega, pow_add]
    rfl
  -- the parts stay in the block, which ends below the last address
  have hlt : ∀ i < 512, frameOf e + i * 2 ^ (9 * (3 - (d + 1))) < 2 ^ 40 := by
    intro i hi
    have hfr := frameOf_lt e
    obtain rfl | rfl : d = 1 ∨ d = 2 := by omega
    · have hal' : frameOf e % 262144 = 0 := hal
      show frameOf e + i * 512 < 1099511627776
      omega
    · have hal' : frameOf e % 512 = 0 := hal
      show frameOf e + i * 1 < 1099511627776
      omega
  have hleaf : ∀ i, tables.child (d + 1) (w i) = none := by
    intro i
    refine child_eq_none_iff.mpr fun h => h.2.2 ⟨?_, Nat.succ_pos d⟩
    rw [hw, has_or]
    exact Or.inr (hch.mpr h.1)
  have hpres : ∀ i, has (w i) ptePresent := by
    intro i
    rw [hw, has_or]
    exact Or.inr hcp
  have hwrite : ∀ i, has (w i) pteWrite := by
    intro i
    rw [hw, has_or]
    exact Or.inr hcw
  have hframe : ∀ i < 512, frameOf (w i) = frameOf e + i * 2 ^ (9 * (3 - (d + 1))) := by
    intro i hi
    rw [hw, frameOf_or _ _ hcf, frameOf_addrBits (hlt i hi)]
  have huser : ∀ i < 512, ¬ has (w i) pteUser := by
    intro i hi
    rw [hw, has_or]
    exact not_or.mpr ⟨not_has_user_addrBits (hlt i hi), hcu⟩
  have hnx : ∀ i < 512, ¬ has (w i) pteNx := by
    intro i hi
    rw [hw, has_or]
    exact not_or.mpr ⟨not_has_nx_addrBits (hlt i hi), hcx⟩
  refine ⟨hleaf, fun i hi => ⟨fun h => absurd (hpres i) h, fun hhuge => ?_, fun h => ?_⟩, fun va => ?_⟩
  · rw [hw, has_or, or_iff_right (not_has_huge_addrBits (hlt i hi))] at hhuge
    refine ⟨⟨Nat.succ_pos d, hch.mp hhuge⟩, hwrite i, huser i hi, hnx i hi, ?_⟩
    rw [hframe i hi, Nat.add_mul_mod_self_right]
    rw [hpow] at hal
    exact Nat.mod_eq_zero_of_dvd ((Nat.dvd_mul_left _ _).trans (Nat.dvd_of_mod_eq_zero hal))
  · exact absurd (hleaf i) h
  · have hi := idx_lt (3 - (d + 1)) va
    rw [leafOf, leafOf, if_pos (hpres _), if_pos hp]
    simp only [Leaf.of, hwrite, huser _ hi, hnx _ hi, hew, heu, hex, hframe _ hi, Option.some.injEq,
      Leaf.mk.injEq, and_true]
    -- the index of the part and the offset in it make up the offset in the huge page
    have hsize : (2 : ℕ) ^ (12 + 9 * (3 - d)) = 2 ^ (12 + 9 * (3 - (d + 1))) * 512 := by
      rw [pow_add, pow_add, hpow]
      ring
    rw [hsize, Nat.mod_mul, idx]
    generalize va / 2 ^ (12 + 9 * (3 - (d + 1))) % 512 = j
    rw [pow_add 2 12]
    ring

def fillAt (d : ℕ) (e : Word) : ℕ → Word :=
  if has e pteHuge then
    match partAt d with
    | some part => part (e &&& pteAddrMsk)
    | none => fun _ => 0
  else fun _ => 0

theorem splitGiga_eq (e : Word) (i : ℕ) :
    splitGiga (e &&& pteAddrMsk) i = addrBits (frameOf e + i * 2 ^ 9) ||| 0x83 := by
  rw [splitGiga, and_pteAddrMsk, addrBits_add _ i 9, BitVec.or_assoc, BitVec.or_assoc]
  rfl

theorem splitMega_eq (e : Word) (i : ℕ) :
    splitMega (e &&& pteAddrMsk) i = addrBits (frameOf e + i * 2 ^ 0) ||| 0x3 := by
  rw [splitMega, and_pteAddrMsk, addrBits_add _ i 0, BitVec.or_assoc]
  rfl

theorem standsFor_fillAt {d : ℕ} (hd : d < 3) (hok : EntryOk d e)
    (hc : tables.child d e = none) : StandsFor d e (fillAt d e) := by
  by_cases hp : has e ptePresent
  · have hh : has e pteHuge ∧ 0 < d := by
      by_contra hh
      exact child_eq_none_iff.mp hc ⟨hd, hp, hh⟩
    rw [fillAt, if_pos hh.1]
    obtain rfl | rfl : d = 1 ∨ d = 2 := by omega
    · exact standsFor_split hd hok hp hh.1 (splitGiga_eq e) (by decide) (by decide) (by decide)
        (by decide) (by decide) (by decide)
    · exact standsFor_split hd hok hp hh.1 (splitMega_eq e) (by decide) (by decide) (by decide)
        (by decide) (by decide) (by decide)
  · obtain rfl := hok.absent hp
    exact standsFor_zero d

section

variable {m : PhysMem} {root va d t g : ℕ} {w : ℕ → Word} (h : PageTables m root)
  (ht : tables.nodeAt m root va d = some t) (hd : d < 3) (hg : g < 2 ^ 40)
  (hfresh : ¬ IsTable m root g) (hold : tables.child d (m t (idx (3 - d) va)) = none)
  (hw : StandsFor d (m t (idx (3 - d) va)) w)

/-- The memory after a new table `g` with words `w` has been put behind an entry. -/
def hang (m : PhysMem) (t i g : ℕ) (w : ℕ → Word) : PhysMem :=
  setWord (update m g w) t i (tableEntry g)

theorem hang_of_ne {s j : ℕ} (hs : s ≠ g) (hne : s ≠ t ∨ j ≠ i) : hang m t i g w s j = m s j := by
  rw [hang, setWord_of_ne _ _ hne, update_of_ne hs]

theorem hang_self (i : ℕ) : hang m t i g w t i = tableEntry g := setWord_self _ _ _ _

theorem hang_new (hgt : g ≠ t) (j : ℕ) : hang m t i g w g j = w j := by
  rw [hang, setWord_of_ne _ _ (Or.inl hgt), update_self]

include ht hfresh

theorem edit_hang : Edit tables m (hang m t (idx (3 - d) va) g w) root va d t := by
  refine ⟨ht, fun s i hs hne => hang_of_ne ?_ hne⟩
  rintro rfl
  exact hfresh hs

theorem ne_table : g ≠ t := by
  rintro rfl
  exact hfresh ⟨va, d, ht⟩

include h hd hg hold hw

theorem nodeAt_hang (y k s : ℕ) :
    tables.nodeAt (hang m t (idx (3 - d) va) g w) root y k = some s ↔
      tables.nodeAt m root y k = some s ∨ (k = d + 1 ∧ tables.Agree (d + 1) va y ∧ s = g) := by
  refine (edit_hang ht hfresh).nodeAt_attach h.tree hold ?_ ?_ y k s
  · rw [tables_ix, hang_self, child_tableEntry hg hd]
  · intro i
    rw [hang_new (ne_table ht hfresh), hw.leaf]

theorem PageTables.hang (hopen : Opened m root va d) :
    PageTables (hang m t (idx (3 - d) va) g w) root := by
  have hnodes := nodeAt_hang h ht hd hg hfresh hold hw
  have hgt := ne_table ht hfresh
  have hentry : ∀ {y k s}, tables.nodeAt m root y k = some s →
      (k = d ∧ tables.Agree (d + 1) va y ∧
        Vm.hang m t (idx (3 - d) va) g w s (idx (3 - k) y) = tableEntry g) ∨
      Vm.hang m t (idx (3 - d) va) g w s (idx (3 - k) y) = m s (idx (3 - k) y) := by
    intro y k s hs
    by_cases hsame : s = t ∧ idx (3 - k) y = idx (3 - d) va
    · obtain ⟨rfl, hix⟩ := hsame
      obtain ⟨rfl, hag⟩ := h.tree ht hs
      refine Or.inl ⟨rfl, agree_succ.mpr ⟨hag, hix.symm⟩, ?_⟩
      rw [hix, hang_self]
    · refine Or.inr (hang_of_ne ?_ (not_and_or.mp hsame))
      rintro rfl
      exact hfresh ⟨y, k, hs⟩
  have huser : has (tableEntry g) pteUser := has_tableEntry (by decide)
  refine ⟨?_, ?_, ?_⟩
  · refine (edit_hang ht hfresh).isTree_attach h.tree hfresh hold ?_ fun i => ?_
    · rw [tables_ix, hang_self, child_tableEntry hg hd]
    · rw [hang_new hgt, hw.leaf]
  · intro y k s hs
    rcases (hnodes y k s).mp hs with hs | ⟨rfl, -, rfl⟩
    · rcases hentry hs with ⟨rfl, -, he⟩ | he
      · rw [he]
        exact entryOk_tableEntry hg k
      · rw [he]
        exact h.entry hs
    · rw [hang_new hgt]
      exact hw.ok _ (idx_lt _ _)
  · intro y k s u hs hu hbit
    rcases (hnodes y k s).mp hs with hs' | ⟨rfl, -, rfl⟩
    · rcases hentry hs' with ⟨rfl, hag, he⟩ | he
      · rw [he]
        exact huser
      · rw [he]
        rcases (hnodes y (k + 1) u).mp hu with hu' | ⟨hk, hag, rfl⟩
        · rcases hentry hu' with ⟨rfl, hag, -⟩ | he'
          · -- the new table hangs below; the entries above it are open
            have hag' := agree_succ.mp (Agree.mono hag (k + 1).le_succ)
            have hs'' : tables.nodeAt m root va k = some s := by
              rw [nodeAt_eq_of_agree hag'.1, hs']
            have hbit' := hopen k k.lt_succ_self s hs''
            rwa [← tables_ix, hag'.2] at hbit'
          · rw [he'] at hbit
            exact h.user hs' hu' hbit
        · -- the entry above the new table is the edited one
          obtain rfl := Nat.succ.inj hk
          have hst : s = t := by
            have hnode : tables.nodeAt m root va k = tables.nodeAt m root y k :=
              nodeAt_eq_of_agree (Agree.mono hag k.le_succ)
            rw [ht, hs'] at hnode
            exact (Option.some.inj hnode).symm
          have hix : idx (3 - k) va = idx (3 - k) y := (agree_succ.mp hag).2
          rw [← he, hst, ← hix, hang_self]
          exact huser
    · -- nothing is below the new table
      rw [nodeAt_succ hs, hang_new hgt, hw.leaf] at hu
      cases hu

theorem walk_hang (y : ℕ) : walk (hang m t (idx (3 - d) va) g w) root y = walk m root y := by
  have hedit : Edit tables m (hang m t (idx (3 - d) va) g w) root va d t := edit_hang ht hfresh
  by_cases hy : tables.Agree (d + 1) va y
  · obtain ⟨hag, hix⟩ := agree_succ.mp hy
    have hty : tables.nodeAt m root y d = some t := by rw [← nodeAt_eq_of_agree hag, ht]
    refine walk_eq_of_below hty (fun k hk s hs => hedit.entry_of_lt h.tree hk hs _) ?_
    -- through the new table the walk ends at one of the words that stand for the entry
    have hix' : idx (3 - d) va = idx (3 - d) y := hix
    have he : hang m t (idx (3 - d) va) g w t (idx (3 - d) y) = tableEntry g := by
      rw [hix', hang_self]
    have hgt := ne_table ht hfresh
    rw [walkAt_of_child (c := g) (by rw [he, child_tableEntry hg hd]),
      walkAt_of_leaf (d := d + 1) hd (by rw [hang_new hgt, hw.leaf]), he, hang_new hgt,
      walkAt_of_leaf hd.le (by rw [← hix', hold]), ← hix']
    have hsame := hw.same y
    rw [leafOf, leafOf] at hsame
    rw [hsame]
    split_ifs
    · rw [Option.map_some, under_tableEntry hg]
    · rfl
  · exact walk_eq_of_entries fun k s hs => hedit.entry_of_apart h.tree hy hs

end

/-! ## Opening a table for the user -/

theorem has_or_user {bits : Word} (h : ¬ has pteUser bits) : has (e ||| pteUser) bits ↔ has e bits := by
  rw [has_or, or_iff_left h]

theorem frameOf_or_user (e : Word) : frameOf (e ||| pteUser) = frameOf e := frameOf_or e _ (by decide)

theorem child_or_user (d : ℕ) (e : Word) : tables.child d (e ||| pteUser) = tables.child d e := by
  simp only [tables, has_or_user (by decide : ¬ has pteUser ptePresent),
    has_or_user (by decide : ¬ has pteUser pteHuge), frameOf_or_user]

theorem EntryOk.or_user {d c : ℕ} (h : EntryOk d e) (hc : tables.child d e = some c) :
    EntryOk d (e ||| pteUser) := by
  obtain ⟨⟨hd, hp, hh⟩, -⟩ := child_eq_some_iff.mp hc
  refine ⟨fun h0 => absurd ((has_or_user (by decide)).mpr hp) h0, fun h1 => ?_, fun h1 => ?_⟩
  · have hhuge := (has_or_user (by decide)).mp h1
    exact absurd ⟨hhuge, (h.huge hhuge).1.1⟩ hh
  · rw [child_or_user] at h1
    obtain ⟨hw, hx⟩ := h.table h1
    exact ⟨(has_or_user (by decide)).mpr hw, fun hx' => hx ((has_or_user (by decide)).mp hx')⟩

section

variable {m : PhysMem} {root va d t c : ℕ} (h : PageTables m root)
  (ht : tables.nodeAt m root va d = some t)
  (hc : tables.child d (m t (idx (3 - d) va)) = some c)

include h

theorem PageTables.user_of_closed (hs : tables.nodeAt m root va d = some t)
    (hcl : ¬ has (m t (idx (3 - d) va)) pteUser) (hnext : tables.nodeAt m root va (d + 1) = some c)
    {l : Leaf} (hl : walkAt m (4 - (d + 1)) c va = some l) : l.user = false := by
  have hcl' : ¬ has (m c (idx (3 - (d + 1)) va)) pteUser := fun hu => hcl (h.user hs hnext hu)
  rcases hchild : tables.child (d + 1) (m c (idx (3 - (d + 1)) va)) with _ | c'
  · rw [walkAt_of_leaf (depth_le hnext) hchild] at hl
    split_ifs at hl
    obtain rfl := Option.some.inj hl
    exact decide_eq_false hcl'
  · rw [walkAt_of_child hchild] at hl
    obtain ⟨l', -, rfl⟩ := Option.map_eq_some_iff.mp hl
    simp only [Leaf.under, hcl', decide_false, Bool.false_and]

include ht hc

theorem PageTables.openEntry (hopen : Opened m root va d) :
    PageTables (Vm.setWord m t (idx (3 - d) va) (m t (idx (3 - d) va) ||| pteUser)) root := by
  refine h.setWord ht ((h.entry ht).or_user hc) (child_or_user _ _) (fun _ => hopen) fun _ => ?_
  rw [has_or]
  exact Or.inr (by decide)

theorem walk_openEntry (y : ℕ) :
    walk (setWord m t (idx (3 - d) va) (m t (idx (3 - d) va) ||| pteUser)) root y =
      walk m root y := by
  have hedit := edit_setWord ht (m t (idx (3 - d) va) ||| pteUser)
  by_cases hy : tables.Agree (d + 1) va y
  · obtain ⟨hag, hix⟩ := agree_succ.mp hy
    have hix' : idx (3 - d) va = idx (3 - d) y := hix
    have hty : tables.nodeAt m root y d = some t := by rw [← nodeAt_eq_of_agree hag, ht]
    have hcy : tables.nodeAt m root y (d + 1) = some c := by rw [nodeAt_succ hty, ← hix, ← hc]; rfl
    refine walk_eq_of_below hty (fun k hk s hs => hedit.entry_of_lt h.tree hk hs _) ?_
    have he : setWord m t (idx (3 - d) va) (m t (idx (3 - d) va) ||| pteUser) t (idx (3 - d) y) =
        m t (idx (3 - d) y) ||| pteUser := by
      rw [hix', setWord_self]
    rw [walkAt_of_child (c := c) (by rw [he, child_or_user, ← hix', hc]),
      walkAt_of_child (m := m) (c := c) (by rw [← hix', hc]), he,
      walkAt_eq_of_entries hcy fun k s hk hs => hedit.entry_of_ne h.tree (by omega) hs _]
    -- only the user bit has changed, and where it has, nothing below is open
    refine Option.map_congr fun l hl => ?_
    have hu : has (m t (idx (3 - d) y) ||| pteUser) pteUser := (has_or _ _ _).mpr (Or.inr (by decide))
    simp only [Leaf.under, has_or_user (by decide : ¬ has pteUser pteWrite),
      has_or_user (by decide : ¬ has pteUser pteNx), hu, decide_true, Bool.true_and]
    by_cases hold : has (m t (idx (3 - d) y)) pteUser
    · simp only [hold, decide_true, Bool.true_and]
    · simp only [h.user_of_closed hty hold hcy hl, Bool.and_false]
  · exact walk_eq_of_entries fun k s hs => hedit.entry_of_apart h.tree hy hs

end

/-! ## One level of `vm_map_page` -/

/-- The pages that calls `a` to `b` of `pmalloc` return are pages of memory, none of them in use, and
no two are the same. -/
structure Supply (pm : ℕ → Option ℕ) (a b : ℕ) (used : ℕ → Prop) : Prop where
  page : ∀ ⦃k g⦄, a ≤ k → k < b → pm k = some g → g < 2 ^ 40 ∧ ¬ used g
  apart : ∀ ⦃j k g⦄, a ≤ j → j < k → k < b → pm j = some g → pm k ≠ some g

/-- What may have changed when tables were added: the pages that are tables now, and nothing else. -/
structure Grows (pm : ℕ → Option ℕ) (root : ℕ) (s s' : VmSys) : Prop where
  calls : s.calls ≤ s'.calls
  changed : ∀ f, s'.mem f ≠ s.mem f → IsTable s'.mem root f
  keep : ∀ f, IsTable s.mem root f → IsTable s'.mem root f
  fresh : ∀ f, IsTable s'.mem root f →
    IsTable s.mem root f ∨ ∃ k, s.calls ≤ k ∧ k < s'.calls ∧ pm k = some f

section

variable {pm : ℕ → Option ℕ} {root : ℕ} {s s' s'' : VmSys}

theorem Grows.refl (pm : ℕ → Option ℕ) (root : ℕ) (s : VmSys) : Grows pm root s s :=
  ⟨le_rfl, fun _ h => absurd rfl h, fun _ h => h, fun _ h => Or.inl h⟩

theorem Grows.trans (h : Grows pm root s s') (h' : Grows pm root s' s'') : Grows pm root s s'' where
  calls := h.calls.trans h'.calls
  changed f hf := by
    by_cases hs : s'.mem f = s.mem f
    · exact h'.changed f (by rwa [hs])
    · exact h'.keep f (h.changed f hs)
  keep f hf := h'.keep f (h.keep f hf)
  fresh f hf := by
    rcases h'.fresh f hf with hf | ⟨k, h1, h2, h3⟩
    · rcases h.fresh f hf with hf | ⟨k, h1, h2, h3⟩
      · exact Or.inl hf
      · exact Or.inr ⟨k, h1, h2.trans_le h'.calls, h3⟩
    · exact Or.inr ⟨k, h.calls.trans h1, h2, h3⟩

theorem Grows.supply {b : ℕ} (h : Grows pm root s s') (hsup : Supply pm s.calls b (IsTable s.mem root)) :
    Supply pm s'.calls b (IsTable s'.mem root) where
  page k g hk hb hg := by
    obtain ⟨hlt, hfresh⟩ := hsup.page (h.calls.trans hk) hb hg
    refine ⟨hlt, fun htab => ?_⟩
    rcases h.fresh g htab with hold | ⟨j, h1, h2, h3⟩
    · exact hfresh hold
    · exact hsup.apart h1 (h2.trans_le hk) hb h3 hg
  apart j k g hj := hsup.apart (h.calls.trans hj)

end

/-- One level down: every page is translated as before, and the next table is there and open. -/
structure Descends (pm : ℕ → Option ℕ) (root va d : ℕ) (s s' : VmSys) (c : ℕ) : Prop where
  inv : PageTables s'.mem root
  walk : ∀ y, walk s'.mem root y = walk s.mem root y
  node : tables.nodeAt s'.mem root va (d + 1) = some c
  opened : Opened s'.mem root va (d + 1)
  grows : Grows pm root s s'
  calls : s'.calls ≤ s.calls + 1

section

variable {pm : ℕ → Option ℕ} {root va d t i : ℕ} {s : VmSys}

theorem nextTable_of_child {c : ℕ} (hc : tables.child d (s.mem t i) = some c) :
    nextTable pm (partAt d) t i s =
      (some c, { s with mem := setWord s.mem t i (s.mem t i ||| pteUser) }) := by
  obtain ⟨⟨hd, hp, hh⟩, rfl⟩ := child_eq_some_iff.mp hc
  have hframe : frameOf (setWord s.mem t i (s.mem t i ||| pteUser) t i) = frameOf (s.mem t i) := by
    rw [setWord_self, frameOf_or_user]
  rw [nextTable, getEntry, gets_bind_run]
  rcases d with _ | d
  · simp only [partAt, hp, not_true_eq_false, if_false]
    rw [setEntry, modify_bind_run, gets_run, hframe]
  · have hnh : ¬ has (s.mem t i) pteHuge := fun h => hh ⟨h, d.succ_pos⟩
    obtain ⟨part, hpart⟩ : ∃ part, partAt (d + 1) = some part := by
      rcases d with _ | d
      · exact ⟨_, rfl⟩
      · exact ⟨_, rfl⟩
    simp only [hpart, hnh, hp, not_true_eq_false, if_false]
    rw [setEntry, modify_bind_run, gets_run, hframe]

theorem allocTable_run (pm : ℕ → Option ℕ) (s : VmSys) :
    allocTable pm s = match pm s.calls with
      | none => (none, { s with calls := s.calls + 1 })
      | some g => (some g, ⟨update s.mem g fun _ => 0, s.calls + 1⟩) := by
  rw [allocTable]
  rcases hpm : pm s.calls with _ | g
  · exact bind_of_none (by rw [pmalloc, hpm])
  · rw [bind_of_some (by rw [pmalloc, hpm])]
    rfl

theorem nextTable_of_none (pm : ℕ → Option ℕ) (hd : d < 3) (hok : EntryOk d (s.mem t i))
    (hc : tables.child d (s.mem t i) = none) :
    nextTable pm (partAt d) t i s =
      match pm s.calls with
      | none => (none, { s with calls := s.calls + 1 })
      | some g => (some (frameOf (tableEntry g)),
          ⟨hang s.mem t i g (fillAt d (s.mem t i)), s.calls + 1⟩) := by
  have halloc := allocTable_run pm s
  -- a huge page is there only where the level splits huge pages
  have hpart : has (s.mem t i) pteHuge → ∃ part, partAt d = some part := by
    intro hh
    have hd0 := (hok.huge hh).1.1
    obtain rfl | rfl : d = 1 ∨ d = 2 := by omega
    · exact ⟨_, rfl⟩
    · exact ⟨_, rfl⟩
  rw [nextTable, getEntry, gets_bind_run, fillAt]
  by_cases hh : has (s.mem t i) pteHuge
  · obtain ⟨part, hpart⟩ := hpart hh
    simp only [hpart, hh, if_true]
    rcases hpm : pm s.calls with _ | g
    · rw [hpm] at halloc
      exact bind_of_none halloc
    · rw [hpm] at halloc
      rw [bind_of_some halloc, fillPage, modify_bind_run, setEntry, modify_bind_run, gets_run]
      dsimp only
      rw [update_idem, setWord_self]
      rfl
  · have hp : ¬ has (s.mem t i) ptePresent := fun hp =>
      child_eq_none_iff.mp hc ⟨hd, hp, fun h => hh h.1⟩
    have hrun : (allocTable pm >>= fun pd => setEntry t i (tableEntry pd) >>= fun _ =>
        gets fun s => frameOf (s.mem t i)) s = match pm s.calls with
          | none => (none, { s with calls := s.calls + 1 })
          | some g => (some (frameOf (tableEntry g)),
            ⟨hang s.mem t i g fun _ => 0, s.calls + 1⟩) := by
      rcases hpm : pm s.calls with _ | g
      · rw [hpm] at halloc
        exact bind_of_none halloc
      · rw [hpm] at halloc
        rw [bind_of_some halloc, setEntry, modify_bind_run, gets_run]
        dsimp only
        rw [setWord_self]
        rfl
    rcases partAt d with _ | part
    · simp only [hp, hh, not_false_eq_true, if_true, if_false]
      exact hrun
    · simp only [hp, hh, not_false_eq_true, if_true, if_false]
      exact hrun

variable (h : PageTables s.mem root) (ht : tables.nodeAt s.mem root va d = some t)

include h ht

theorem descends_hang {w : ℕ → Word} (hd : d < 3) (hopen : Opened s.mem root va d)
    (hpm : pm s.calls = some g) (hg : g < 2 ^ 40) (hfresh : ¬ IsTable s.mem root g)
    (hc : tables.child d (s.mem t (idx (3 - d) va)) = none)
    (hw : StandsFor d (s.mem t (idx (3 - d) va)) w) :
    Descends pm root va d s ⟨hang s.mem t (idx (3 - d) va) g w, s.calls + 1⟩ g := by
  have hnodes := nodeAt_hang h ht hd hg hfresh hc hw
  have hnew : tables.nodeAt (hang s.mem t (idx (3 - d) va) g w) root va (d + 1) = some g :=
    (hnodes va (d + 1) g).mpr (Or.inr ⟨rfl, fun _ _ => rfl, rfl⟩)
  refine ⟨h.hang ht hd hg hfresh hc hw hopen, walk_hang h ht hd hg hfresh hc hw, hnew, ?_, ?_, le_rfl⟩
  · -- the entries above were open, and the new one is
    intro k hk u hu
    dsimp only at hu ⊢
    rcases Nat.lt_succ_iff_lt_or_eq.mp hk with hk | rfl
    · rw [(edit_hang ht hfresh).nodeAt_of_le h.tree hk.le] at hu
      have hentry : hang s.mem t (idx (3 - d) va) g w u (idx (3 - k) va) =
          s.mem u (idx (3 - k) va) := (edit_hang ht hfresh).entry_of_lt h.tree hk hu _
      rw [hentry]
      exact hopen k hk u hu
    · rw [(edit_hang ht hfresh).nodeAt_of_le h.tree le_rfl] at hu
      obtain rfl : t = u := Option.some.inj (ht.symm.trans hu)
      rw [hang_self]
      exact has_tableEntry (by decide)
  · refine ⟨Nat.le_succ _, fun f hf => ?_,
      fun f ⟨y, k, hf⟩ => ⟨y, k, (hnodes y k f).mpr (Or.inl hf)⟩, fun f ⟨y, k, hf⟩ => ?_⟩
    · by_cases hft : f = t
      · exact ⟨va, d, (hnodes va d f).mpr (Or.inl (hft ▸ ht))⟩
      · by_cases hfg : f = g
        · exact ⟨va, d + 1, hfg ▸ hnew⟩
        · exact absurd (funext fun j => hang_of_ne hfg (Or.inl hft)) hf
    · rcases (hnodes y k f).mp hf with hf | ⟨-, -, rfl⟩
      · exact Or.inl ⟨y, k, hf⟩
      · exact Or.inr ⟨s.calls, le_rfl, Nat.lt_succ_self _, hpm⟩

theorem grows_setWord (hnodes : ∀ y k, tables.nodeAt (setWord s.mem t (idx (3 - d) va) e) root y k =
      tables.nodeAt s.mem root y k) :
    Grows pm root s { s with mem := setWord s.mem t (idx (3 - d) va) e } := by
  refine ⟨le_rfl, fun f hf => ?_, fun f ⟨y, k, hf⟩ => ⟨y, k, (hnodes y k).trans hf⟩,
    fun f ⟨y, k, hf⟩ => Or.inl ⟨y, k, (hnodes y k).symm.trans hf⟩⟩
  by_cases hft : f = t
  · exact ⟨va, d, (hnodes va d).trans (hft ▸ ht)⟩
  · exact absurd (funext fun j => setWord_of_ne _ _ (Or.inl hft)) hf

theorem descends_open {c : ℕ} (hopen : Opened s.mem root va d)
    (hc : tables.child d (s.mem t (idx (3 - d) va)) = some c) :
    Descends pm root va d s
      { s with mem := setWord s.mem t (idx (3 - d) va) (s.mem t (idx (3 - d) va) ||| pteUser) } c := by
  have hedit := edit_setWord ht (s.mem t (idx (3 - d) va) ||| pteUser)
  have hnodes := hedit.nodeAt_eq h.tree (by rw [tables_ix, setWord_self, child_or_user])
  refine ⟨h.openEntry ht hc hopen, walk_openEntry h ht hc, ?_, ?_, grows_setWord h ht hnodes,
    Nat.le_succ _⟩
  · exact (hnodes va (d + 1)).trans ((nodeAt_succ ht).trans hc)
  · intro k hk u hu
    dsimp only at hu ⊢
    rw [hnodes] at hu
    rcases Nat.lt_succ_iff_lt_or_eq.mp hk with hk | rfl
    · rw [hedit.entry_of_lt h.tree hk hu]
      exact hopen k hk u hu
    · obtain rfl : t = u := Option.some.inj (ht.symm.trans hu)
      rw [setWord_self, has_or]
      exact Or.inr (by decide)

theorem nextTable_spec (hd : d < 3) (hopen : Opened s.mem root va d) {b : ℕ} (hb : s.calls < b)
    (hsup : Supply pm s.calls b (IsTable s.mem root)) :
    (nextTable pm (partAt d) t (idx (3 - d) va) s = (none, { s with calls := s.calls + 1 }) ∧
      pm s.calls = none) ∨
    ∃ c s', nextTable pm (partAt d) t (idx (3 - d) va) s = (some c, s') ∧
      Descends pm root va d s s' c := by
  rcases hc : tables.child d (s.mem t (idx (3 - d) va)) with _ | c
  · have hrun := nextTable_of_none pm hd (h.entry ht) hc
    rcases hpm : pm s.calls with _ | g
    · rw [hpm] at hrun
      exact Or.inl ⟨hrun, rfl⟩
    · obtain ⟨hg, hfresh⟩ := hsup.page le_rfl hb hpm
      rw [hpm] at hrun
      dsimp only at hrun
      rw [frameOf_tableEntry hg] at hrun
      exact Or.inr ⟨g, _, hrun, descends_hang h ht hd hopen hpm hg hfresh hc
        (standsFor_fillAt hd (h.entry ht) hc)⟩
  · exact Or.inr ⟨c, _, nextTable_of_child hc, descends_open h ht hopen hc⟩

end

/-! ## The whole of `vm_map_page` -/

theorem agree_four {x y : ℕ} : tables.Agree 4 x y ↔ x / 4096 % 2 ^ 36 = y / 4096 % 2 ^ 36 := by
  have hsplit : ∀ z : ℕ, z / 4096 % 2 ^ 36 =
      idx 0 z + 512 * (idx 1 z + 512 * (idx 2 z + 512 * idx 3 z)) := by
    intro z
    simp only [idx]
    norm_num
    omega
  have h0 := idx_lt 0
  have h1 := idx_lt 1
  have h2 := idx_lt 2
  constructor
  · intro h
    rw [hsplit, hsplit, show idx 0 x = idx 0 y from h 3 (by decide),
      show idx 1 x = idx 1 y from h 2 (by decide), show idx 2 x = idx 2 y from h 1 (by decide),
      show idx 3 x = idx 3 y from h 0 (by decide)]
  · intro h
    rw [hsplit, hsplit] at h
    have hx0 := h0 x
    have hx1 := h1 x
    have hx2 := h2 x
    have hy0 := h0 y
    have hy1 := h1 y
    have hy2 := h2 y
    have hall : idx 0 x = idx 0 y ∧ idx 1 x = idx 1 y ∧ idx 2 x = idx 2 y ∧ idx 3 x = idx 3 y := by
      omega
    intro k hk
    obtain rfl | rfl | rfl | rfl : k = 0 ∨ k = 1 ∨ k = 2 ∨ k = 3 := by omega
    · exact hall.2.2.2
    · exact hall.2.2.1
    · exact hall.2.1
    · exact hall.1

/-- What `vm_map_page` is asked to put into a page. -/
def mapped (phys flags : Word) (va : ℕ) : Leaf where
  addr := (phys &&& pteAddrMsk).toNat + va % 4096
  write := decide (has flags vmWrite)
  user := decide (has flags vmUser)
  nx := !decide (has flags vmExec)

def remap (va : ℕ) (leaf : ℕ → Option Leaf) (w : ℕ → Option Leaf) (y : ℕ) : Option Leaf :=
  if y / 4096 % 2 ^ 36 = va / 4096 % 2 ^ 36 then leaf y else w y

section

variable {m : PhysMem} {root va t : ℕ}

theorem PageTables.walk_of_opened (h : PageTables m root) {d : ℕ}
    (ht : tables.nodeAt m root va d = some t) (hopen : Opened m root va d) :
    walk m root va = walkAt m (4 - d) t va := by
  induction d generalizing t with
  | zero =>
    cases ht
    rfl
  | succ d ih =>
    obtain ⟨s, hs, hc⟩ := exists_of_nodeAt_succ ht
    have hc' : tables.child d (m s (idx (3 - d) va)) = some t := hc
    obtain ⟨hw, hx⟩ := (h.entry hs).table (by rw [hc']; exact Option.some_ne_none t)
    have hu := hopen d d.lt_succ_self s hs
    have hunder : Leaf.under (m s (idx (3 - d) va)) = id := by
      funext l
      simp only [Leaf.under, hw, hu, hx, decide_true, decide_false, Bool.true_and, Bool.false_or,
        id_eq]
    rw [ih hs fun k hk => hopen k (hk.trans d.lt_succ_self), walkAt_of_child hc', hunder,
      Option.map_id]
    rfl

theorem addrBits_toNat (hf : f < 2 ^ 40) : (addrBits f).toNat = f * 4096 := by
  rw [addrBits, BitVec.toNat_ofNat]
  omega

theorem leafOf_mapped (phys flags : Word) (y : ℕ) :
    leafOf 3 (phys &&& pteAddrMsk ||| pteFlags flags) y = some (mapped phys flags y) := by
  obtain ⟨hp, hw, hu, hx, -, hf⟩ := pteFlags_bits flags
  have hfr := frameOf_lt phys
  rw [and_pteAddrMsk, leafOf, if_pos ((has_or _ _ _).mpr (Or.inr hp)), mapped, Leaf.of,
    frameOf_or _ _ hf, frameOf_addrBits hfr, and_pteAddrMsk, addrBits_toNat hfr]
  simp only [has_or, not_has_write_addrBits hfr, not_has_user_addrBits hfr, not_has_nx_addrBits hfr,
    false_or, hw, hu, hx, decide_not]
  rfl

theorem entryOk_mapped (phys flags : Word) :
    EntryOk 3 (phys &&& pteAddrMsk ||| pteFlags flags) := by
  obtain ⟨hp, -, -, -, hh, -⟩ := pteFlags_bits flags
  refine ⟨fun h0 => absurd ((has_or _ _ _).mpr (Or.inr hp)) h0, fun h1 => ?_,
    fun h1 => absurd child_three h1⟩
  rw [and_pteAddrMsk, has_or, or_iff_left hh] at h1
  exact absurd h1 (not_has_huge_addrBits (frameOf_lt phys))

section

variable (h : PageTables m root) (ht : tables.nodeAt m root va 3 = some t)
  (hopen : Opened m root va 3) {e : Word} (hok : EntryOk 3 e)

include h ht

theorem nodeAt_setLeaf (e : Word) (y k : ℕ) :
    tables.nodeAt (setWord m t (idx 0 va) e) root y k = tables.nodeAt m root y k :=
  (edit_setWord ht e).nodeAt_eq h.tree (by rw [child_three, child_three]) y k

include hopen hok

theorem PageTables.setLeaf : PageTables (Vm.setWord m t (idx 0 va) e) root :=
  h.setWord ht hok (by rw [child_three, child_three]) (fun _ => hopen)
    fun hc => absurd child_three hc

theorem walk_setLeaf (y : ℕ) :
    walk (setWord m t (idx 0 va) e) root y = remap va (leafOf 3 e) (walk m root) y := by
  have hedit : Edit tables m (setWord m t (idx 0 va) e) root va 3 t := edit_setWord ht e
  by_cases hy : tables.Agree 4 va y
  · obtain ⟨hag, hix⟩ := agree_succ.mp hy
    have hty : tables.nodeAt (setWord m t (idx 0 va) e) root y 3 = some t := by
      rw [nodeAt_setLeaf h ht, ← nodeAt_eq_of_agree hag, ht]
    have hopen' : Opened (setWord m t (idx 0 va) e) root y 3 := by
      intro k hk s hs
      rw [nodeAt_setLeaf h ht, ← nodeAt_eq_of_agree (Agree.mono hag hk.le)] at hs
      have hixk : idx (3 - k) va = idx (3 - k) y := hag k hk
      rw [hedit.entry_of_lt h.tree hk hs, ← hixk]
      exact hopen k hk s hs
    have he : setWord m t (idx 0 va) e t (idx (3 - 3) y) = e := by
      rw [show idx (3 - 3) y = idx 0 va from hix.symm, setWord_self]
    rw [remap, if_pos (agree_four.mp (Agree.symm hy)),
      (h.setLeaf ht hopen hok).walk_of_opened hty hopen', walkAt_of_leaf le_rfl child_three, he, leafOf]
  · rw [remap, if_neg fun hpage => hy (Agree.symm (agree_four.mpr hpage))]
    exact walk_eq_of_entries fun k s hs => hedit.entry_of_apart h.tree hy hs

end

end

structure Kept (pm : ℕ → Option ℕ) (root : ℕ) (s s' : VmSys) : Prop where
  inv : PageTables s'.mem root
  grows : Grows pm root s s'
  walk : ∀ y, walk s'.mem root y = walk s.mem root y

structure Remapped (pm : ℕ → Option ℕ) (root va : ℕ) (leaf : ℕ → Option Leaf) (s s' : VmSys) :
    Prop where
  inv : PageTables s'.mem root
  grows : Grows pm root s s'
  walk : ∀ y, walk s'.mem root y = remap va leaf (Vm.walk s.mem root) y

section

variable {pm : ℕ → Option ℕ} {root va : ℕ} {s : VmSys}

theorem vmMapPage_eq (hva : va % 4096 = 0) (phys flags : Word) :
    vmMapPage pm root va phys flags = (do
      let pdpt ← nextTable pm (partAt 0) root (idx (3 - 0) va)
      let pd ← nextTable pm (partAt 1) pdpt (idx (3 - 1) va)
      let pt ← nextTable pm (partAt 2) pd (idx (3 - 2) va)
      setEntry pt (idx 0 va) (phys &&& pteAddrMsk ||| pteFlags flags)) := by
  rw [vmMapPage, if_neg (not_not.mpr hva)]
  rfl

theorem vmMapPage_spec (h : PageTables s.mem root) (hva : va % 4096 = 0) (phys flags : Word)
    (hsup : Supply pm s.calls (s.calls + 3) (IsTable s.mem root)) :
    (∃ s', vmMapPage pm root va phys flags s = (none, s') ∧ s'.calls ≤ s.calls + 3 ∧
      Kept pm root s s' ∧ ∃ k, s.calls ≤ k ∧ k < s.calls + 3 ∧ pm k = none) ∨
    ∃ s', vmMapPage pm root va phys flags s = (some (), s') ∧ s'.calls ≤ s.calls + 3 ∧
      Remapped pm root va (fun y => some (mapped phys flags y)) s s' := by
  rw [vmMapPage_eq hva]
  -- a level that fails has only called `pmalloc`
  have hfail : ∀ {r : VmSys}, PageTables r.mem root → Grows pm root s r →
      (∀ y, walk r.mem root y = walk s.mem root y) →
      Kept pm root s { r with calls := r.calls + 1 } := fun hinv hg hw =>
    ⟨hinv, ⟨hg.calls.trans (Nat.le_succ _), hg.changed, hg.keep, fun f hf =>
      (hg.fresh f hf).imp_right fun ⟨k, h1, h2, h3⟩ => ⟨k, h1, h2.trans (Nat.lt_succ_self _), h3⟩⟩,
      hw⟩
  have hroot : tables.nodeAt s.mem root va 0 = some root := rfl
  obtain ⟨hrun, hpm⟩ | ⟨pdpt, s₁, hrun, h₁⟩ := nextTable_spec h hroot (by decide)
    (fun k hk => absurd hk k.not_lt_zero) (by omega) hsup
  · exact Or.inl ⟨_, bind_of_none hrun, Nat.add_le_add_left (by decide) _, hfail h (Grows.refl pm root s) fun _ => rfl,
      s.calls, le_rfl, by omega, hpm⟩
  rw [bind_of_some hrun]
  have hc₁ := h₁.calls
  obtain ⟨hrun, hpm⟩ | ⟨pd, s₂, hrun, h₂⟩ := nextTable_spec h₁.inv h₁.node (by decide) h₁.opened
    (by omega) (h₁.grows.supply hsup)
  · exact Or.inl ⟨_, bind_of_none hrun, by dsimp only; omega, hfail h₁.inv h₁.grows h₁.walk,
      s₁.calls, h₁.grows.calls, by omega, hpm⟩
  rw [bind_of_some hrun]
  have hc₂ := h₂.calls
  have hg₂ := h₁.grows.trans h₂.grows
  have hw₂ : ∀ y, walk s₂.mem root y = walk s.mem root y := fun y => (h₂.walk y).trans (h₁.walk y)
  obtain ⟨hrun, hpm⟩ | ⟨pt, s₃, hrun, h₃⟩ := nextTable_spec h₂.inv h₂.node (by decide) h₂.opened
    (by omega) (hg₂.supply hsup)
  · exact Or.inl ⟨_, bind_of_none hrun, by dsimp only; omega, hfail h₂.inv hg₂ hw₂,
      s₂.calls, hg₂.calls, by omega, hpm⟩
  rw [bind_of_some hrun]
  have hc₃ := h₃.calls
  have hok := entryOk_mapped phys flags
  refine Or.inr ⟨_, rfl, ?_, h₃.inv.setLeaf h₃.node h₃.opened hok,
    (hg₂.trans h₃.grows).trans (grows_setWord h₃.inv h₃.node (nodeAt_setLeaf h₃.inv h₃.node _)), ?_⟩
  · show s₃.calls ≤ _
    omega
  · intro y
    refine (walk_setLeaf h₃.inv h₃.node h₃.opened hok y).trans ?_
    rw [remap, remap, leafOf_mapped, h₃.walk, hw₂]

end

end BananaOS.Vm
