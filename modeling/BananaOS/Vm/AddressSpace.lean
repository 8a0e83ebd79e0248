import BananaOS.Vm.MapPage

/-!
# Address spaces over whole histories

An address space begins with `vm_create`, which maps the memory of the kernel in pages of 1 GiB and
the signal restorer in a page of 4 KiB, and it goes on with any number of calls of `vm_map_page` and
`vm_unmap`.  `PageTables` holds after the first (`vmCreate_spec`) and is kept by the others
(`vmMapPage_spec`, `vmUnmap_spec`), so what was shown for one call of `vm_map_page` holds in every
address space that there is.
-/

namespace BananaOS.Vm

open Function FailState RadixTree GuardedRun

/-! ## The pages of the user -/

section

variable {m : PhysMem} {root va d t : ℕ}

theorem PageTables.opened_of_user (h : PageTables m root) (ht : tables.nodeAt m root va d = some t)
    (hu : has (m t (idx (3 - d) va)) pteUser) : Opened m root va d := by
  induction d generalizing t with
  | zero => exact fun k hk => absurd hk k.not_lt_zero
  | succ d ih =>
    obtain ⟨s, hs, -⟩ := exists_of_nodeAt_succ ht
    have hsu := h.user hs ht hu
    intro k hk u hku
    rcases Nat.lt_succ_iff_lt_or_eq.mp hk with hk | rfl
    · exact ih hs hsu k hk u hku
    · cases Option.some.inj (hs.symm.trans hku)
      exact hsu

/-- The page of `va` is open for the user, by entry `e` of a table of 4 KiB pages. -/
structure UserEntry (m : PhysMem) (root va t : ℕ) : Prop where
  node : tables.nodeAt m root va 3 = some t
  present : has (m t (idx 0 va)) ptePresent
  user : has (m t (idx 0 va)) pteUser

theorem UserEntry.opened (h : PageTables m root) (he : UserEntry m root va t) :
    Opened m root va 3 := h.opened_of_user he.node he.user

theorem UserEntry.walk (h : PageTables m root) (he : UserEntry m root va t) :
    walk m root va = some (.of (m t (idx 0 va)) 4096 va) := by
  rw [h.walk_of_opened he.node (he.opened h), walkAt_of_leaf le_rfl child_three]
  exact if_pos he.present

theorem PageTables.userEntry_of_walkAt {d t : ℕ} (h : PageTables m root)
    (ht : tables.nodeAt m root va d = some t) {l : Leaf} (hl : walkAt m (4 - d) t va = some l)
    (hu : l.user = true) : ∃ t', UserEntry m root va t' := by
  have hd := depth_le ht
  rcases hc : tables.child d (m t (idx (3 - d) va)) with _ | c
  · rw [walkAt_of_leaf hd hc] at hl
    split_ifs at hl with hp
    obtain rfl := Option.some.inj hl
    have hue : has (m t (idx (3 - d) va)) pteUser := of_decide_eq_true hu
    have hd3 : d = 3 := by
      by_contra hd3
      have hnh : ¬ has (m t (idx (3 - d) va)) pteHuge := fun hh =>
        ((h.entry ht).huge hh).2.2.1 hue
      exact child_eq_none_iff.mp hc ⟨by omega, hp, fun hh => hnh hh.1⟩
    subst hd3
    exact ⟨t, ht, hp, hue⟩
  · rw [walkAt_of_child hc] at hl
    obtain ⟨l', hl', rfl⟩ := Option.map_eq_some_iff.mp hl
    have hnode : tables.nodeAt m root va (d + 1) = some c := (nodeAt_succ ht).trans hc
    exact userEntry_of_walkAt h hnode hl' (Bool.and_eq_true_iff.mp hu).2
termination_by 4 - d

theorem PageTables.user_iff (h : PageTables m root) :
    (∃ l, walk m root va = some l ∧ l.user = true) ↔ ∃ t, UserEntry m root va t := by
  constructor
  · rintro ⟨l, hl, hu⟩
    exact h.userEntry_of_walkAt (d := 0) rfl hl hu
  · rintro ⟨t, ht⟩
    exact ⟨_, ht.walk h, decide_eq_true ht.user⟩

end

/-! ## `vm_unmap` -/

section

variable {m : PhysMem} {root : ℕ}

theorem unmapPage_eq (m : PhysMem) (root a : ℕ) :
    unmapPage m root a = match tables.nodeAt m root a 3 with
      | none => (m, [])
      | some t =>
        if ¬ has (m t (idx 0 a)) ptePresent then (m, [])
        else if ¬ has (m t (idx 0 a)) pteUser ∨ has (m t (idx 0 a)) pteHuge then (m, [])
        else (setWord m t (idx 0 a) 0, [frameOf (m t (idx 0 a))]) := by
  have hchild : ∀ d e, d < 3 → tables.child d e =
      if ¬ has e ptePresent ∨ (has e pteHuge ∧ 0 < d) then none else some (frameOf e) := by
    intro d e hd
    rcases hc : tables.child d e with _ | c
    · rw [child_eq_none_iff] at hc
      rw [if_pos]
      by_contra hcon
      rw [not_or, not_not] at hcon
      exact hc ⟨hd, hcon⟩
    · obtain ⟨⟨-, hp, hh⟩, rfl⟩ := child_eq_some_iff.mp hc
      rw [if_neg (not_or.mpr ⟨not_not.mpr hp, hh⟩)]
  simp only [Shape.nodeAt, Option.bind_some, tables_ix, hchild 0 _ (by decide), lt_irrefl, and_false,
    or_false, unmapPage]
  by_cases h4 : has (m root (idx 3 a)) ptePresent
  · simp only [h4, not_true_eq_false, if_false, Option.bind_some, hchild 1 _ (by decide),
      Nat.zero_lt_one, and_true]
    generalize frameOf (m root (idx 3 a)) = t3
    by_cases h3 : ¬ has (m t3 (idx 2 a)) ptePresent ∨ has (m t3 (idx 2 a)) pteHuge
    · simp only [h3, if_true, Option.bind_none]
    · simp only [h3, if_false, Option.bind_some, hchild 2 _ (by decide), Nat.zero_lt_two, and_true]
      generalize frameOf (m t3 (idx 2 a)) = t2
      by_cases h2 : ¬ has (m t2 (idx 1 a)) ptePresent ∨ has (m t2 (idx 1 a)) pteHuge
      · simp only [h2, if_true]
      · simp only [h2, if_false]
  · simp only [h4, not_false_eq_true, if_true, Option.bind_none]

theorem unmapPage_of_not_table {a f : ℕ} (hf : ¬ IsTable m root f) : (unmapPage m root a).1 f = m f := by
  rw [unmapPage_eq]
  rcases hn : tables.nodeAt m root a 3 with _ | t
  · rfl
  · dsimp only
    split_ifs
    · rfl
    · funext i
      refine setWord_of_ne _ _ (Or.inl ?_)
      rintro rfl
      exact hf ⟨a, 3, hn⟩
    · rfl

/-- The translation after page `a` has been taken away from the user. -/
def unmapped (w : ℕ → Option Leaf) (a y : ℕ) : Option Leaf :=
  if (w a).any Leaf.user then remap a (fun _ => none) w y else w y

theorem unmapPage_spec (h : PageTables m root) (a : ℕ) :
    PageTables (unmapPage m root a).1 root ∧
      (∀ y k, tables.nodeAt (unmapPage m root a).1 root y k = tables.nodeAt m root y k) ∧
      (∀ y, walk (unmapPage m root a).1 root y = unmapped (walk m root) a y) ∧
      (unmapPage m root a).2 = ((walk m root a).filter Leaf.user).toList.map fun l => l.addr / 4096 := by
  by_cases hu : ∃ l, walk m root a = some l ∧ l.user = true
  · obtain ⟨t, ht⟩ := h.user_iff.mp hu
    have hnh : ¬ has (m t (idx 0 a)) pteHuge := fun hh =>
      absurd ((h.entry ht.node).huge hh).1.2 (by decide)
    have hrun : unmapPage m root a = (setWord m t (idx 0 a) 0, [frameOf (m t (idx 0 a))]) := by
      rw [unmapPage_eq, ht.node]
      dsimp only
      rw [if_neg (not_not.mpr ht.present), if_neg (not_or.mpr ⟨not_not.mpr ht.user, hnh⟩)]
    have hopen := ht.opened h
    have hleaf : (Leaf.of (m t (idx 0 a)) 4096 a).user = true := decide_eq_true ht.user
    rw [hrun]
    refine ⟨h.setLeaf ht.node hopen (entryOk_zero 3), nodeAt_setLeaf h ht.node 0, fun y => ?_, ?_⟩
    · rw [walk_setLeaf h ht.node hopen (entryOk_zero 3), unmapped, ht.walk h, Option.any_some,
        if_pos hleaf]
      rfl
    · rw [ht.walk h, Option.filter_some, if_pos hleaf]
      show [frameOf _] = [(frameOf (m t (idx 0 a)) * 4096 + a % 4096) / 4096]
      have hdiv : (frameOf (m t (idx 0 a)) * 4096 + a % 4096) / 4096 = frameOf (m t (idx 0 a)) := by
        omega
      rw [hdiv]
  · have hrun : unmapPage m root a = (m, []) := by
      rw [unmapPage_eq]
      rcases hn : tables.nodeAt m root a 3 with _ | t
      · rfl
      · dsimp only
        by_cases hp : has (m t (idx 0 a)) ptePresent
        · rw [if_neg (not_not.mpr hp), if_pos]
          refine Or.inl fun hue => hu ?_
          exact h.user_iff.mpr ⟨t, hn, hp, hue⟩
        · rw [if_pos hp]
    have hany : (walk m root a).filter Leaf.user = none := by
      rw [Option.filter_eq_none_iff]
      intro l hl hlu
      exact hu ⟨l, hl, hlu⟩
    have hany' : (walk m root a).any Leaf.user = false := by
      rw [Option.any_eq_false]
      intro l hl
      exact Bool.eq_false_iff.mpr fun hlu => hu ⟨l, hl, hlu⟩
    rw [hrun]
    refine ⟨h, fun _ _ => rfl, fun y => ?_, ?_⟩
    · rw [unmapped, hany']
      rfl
    · rw [hany]
      rfl

theorem unmapLoop_spec {stop : ℕ} : ∀ {fuel a : ℕ} {m : PhysMem} {r : PhysMem × List ℕ},
    PageTables m root → unmapLoop root stop fuel a m = some r →
    PageTables r.1 root ∧ ∀ y k, tables.nodeAt r.1 root y k = tables.nodeAt m root y k := by
  intro fuel
  induction fuel with
  | zero => exact fun _ hr => nomatch hr
  | succ fuel ih =>
    intro a m r h hr
    rw [unmapLoop] at hr
    split_ifs at hr
    · obtain ⟨r', hr', rfl⟩ := Option.map_eq_some_iff.mp hr
      obtain ⟨hinv, hnodes, -, -⟩ := unmapPage_spec h a
      obtain ⟨hinv', hnodes'⟩ := ih hinv hr'
      exact ⟨hinv', fun y k => (hnodes' y k).trans (hnodes y k)⟩
    · cases hr
      exact ⟨h, fun _ _ => rfl⟩

theorem vmUnmap_spec (h : PageTables m root) {vaddr len : ℕ} {r : ℤ × PhysMem × List ℕ}
    (hr : vmUnmap m (some root) vaddr len = some r) : PageTables r.2.1 root := by
  rw [vmUnmap] at hr
  split_ifs at hr
  · cases hr
    exact h
  · obtain ⟨r', hr', rfl⟩ := Option.map_eq_some_iff.mp hr
    exact (unmapLoop_spec h hr').1

end

/-! ## `vm_create` -/

/-- The words of the table that maps the memory of the kernel. -/
def kernelTable (i : ℕ) : Word :=
  if i = 0 then 0x83 else if i = 1 then 0x40000083 else if i = 3 then 0xC0000093 else 0

/-- The memory after `vm_create` has set up the kernel's part. -/
def kernelMem (m : PhysMem) (root g : ℕ) : PhysMem :=
  setWord (update (update m root fun _ => 0) g kernelTable) root 0
    (addrBits g ||| 0x3)

/-- The kernel's part of an address space. -/
def kernelMap (y : ℕ) : Option Leaf :=
  if y % 2 ^ 48 < 2 ^ 31 ∨ (3 * 2 ^ 30 ≤ y % 2 ^ 48 ∧ y % 2 ^ 48 < 2 ^ 32) then
    some ⟨y % 2 ^ 48, true, false, false⟩
  else none

section

variable {m : PhysMem} {root g : ℕ}

theorem kernelTable_cases (i : ℕ) : kernelTable i = 0 ∨
    (has (kernelTable i) ptePresent ∧ has (kernelTable i) pteHuge ∧ has (kernelTable i) pteWrite ∧
      ¬ has (kernelTable i) pteUser ∧ ¬ has (kernelTable i) pteNx ∧
      frameOf (kernelTable i) = i * 2 ^ 18 ∧ (i = 0 ∨ i = 1 ∨ i = 3)) := by
  by_cases h0 : i = 0
  · subst h0
    exact Or.inr (by decide)
  by_cases h1 : i = 1
  · subst h1
    exact Or.inr (by decide)
  by_cases h3 : i = 3
  · subst h3
    exact Or.inr (by decide)
  · left
    rw [kernelTable, if_neg h0, if_neg h1, if_neg h3]

theorem kernelMem_root (m : PhysMem) (hne : g ≠ root) (i : ℕ) :
    kernelMem m root g root i = if i = 0 then addrBits g ||| 0x3 else 0 := by
  rw [kernelMem]
  split_ifs with hi
  · rw [hi, setWord_self]
  · rw [setWord_of_ne _ _ (Or.inr hi), update_of_ne hne.symm, update_self]

theorem kernelMem_table (m : PhysMem) (hne : g ≠ root) (i : ℕ) :
    kernelMem m root g g i = kernelTable i := by
  rw [kernelMem, setWord_of_ne _ _ (Or.inl hne), update_self]

variable (hg : g < 2 ^ 40) (hne : g ≠ root)

theorem child_kernelTable (i : ℕ) : tables.child 1 (kernelTable i) = none := by
  refine child_eq_none_iff.mpr fun h => ?_
  rcases kernelTable_cases i with h0 | ⟨-, hh, -⟩
  · rw [h0] at h
    exact absurd h.2.1 (by decide)
  · exact h.2.2 ⟨hh, Nat.zero_lt_one⟩

theorem has_kernelEntry {bits : Word} (hbits : ¬ has (addrBits g) bits) :
    has (addrBits g ||| 0x3) bits ↔ has 0x3 bits := by
  rw [has_or, or_iff_right hbits]

include hg in
theorem child_kernelEntry : tables.child 0 (addrBits g ||| 0x3) = some g := by
  refine child_eq_some_iff.mpr ⟨⟨by decide, ?_, fun h => absurd h.2 (by decide)⟩, ?_⟩
  · exact (has_or _ _ _).mpr (Or.inr (by decide))
  · rw [frameOf_or _ _ (by decide), frameOf_addrBits hg]

include hg hne

theorem nodeAt_kernelMem (y k t : ℕ) : tables.nodeAt (kernelMem m root g) root y k = some t ↔
    (k = 0 ∧ t = root) ∨ (k = 1 ∧ idx 3 y = 0 ∧ t = g) := by
  have h1 : tables.nodeAt (kernelMem m root g) root y 1 = if idx 3 y = 0 then some g else none := by
    rw [nodeAt_succ (rfl : tables.nodeAt (kernelMem m root g) root y 0 = some root), tables_ix,
      kernelMem_root m hne]
    split_ifs with h
    · exact child_kernelEntry hg
    · exact child_eq_none_iff.mpr fun hc => absurd hc.2.1 (by decide)
  rcases k with _ | _ | k
  · simp only [Shape.nodeAt, Option.some.injEq, true_and, zero_ne_one, false_and, or_false, eq_comm]
  · rw [h1]
    split_ifs with h
    · simp [h, eq_comm]
    · simp [h]
  · have h2 : tables.nodeAt (kernelMem m root g) root y 2 = none := by
      by_cases h : idx 3 y = 0
      · rw [if_pos h] at h1
        rw [nodeAt_succ h1, kernelMem_table m hne, child_kernelTable]
      · rw [if_neg h] at h1
        exact nodeAt_none_of_le h1 (by decide)
    rw [nodeAt_none_of_le h2 (by omega)]
    simp

theorem kernelMem_inv (m : PhysMem) : PageTables (kernelMem m root g) root := by
  have hnodes := nodeAt_kernelMem (m := m) hg hne
  refine ⟨?_, ?_, ?_⟩
  · intro y z k j t hy hz
    rcases (hnodes y k t).mp hy with ⟨rfl, ht⟩ | ⟨rfl, hyi, ht⟩ <;>
      rcases (hnodes z j t).mp hz with ⟨rfl, ht'⟩ | ⟨rfl, hzi, ht'⟩
    · exact ⟨rfl, fun i hi => absurd hi i.not_lt_zero⟩
    · exact absurd (ht'.symm.trans ht) hne
    · exact absurd (ht.symm.trans ht') hne
    · refine ⟨rfl, fun i hi => ?_⟩
      obtain rfl := Nat.lt_one_iff.mp hi
      exact hyi.trans hzi.symm
  · intro y k t ht
    rcases (hnodes y k t).mp ht with ⟨rfl, rfl⟩ | ⟨rfl, -, rfl⟩
    · rw [kernelMem_root m hne]
      split_ifs with h
      · have hx : ¬ has (addrBits g ||| 0x3) pteNx := by
          rw [has_kernelEntry (not_has_nx_addrBits hg)]
          decide
        have hh : ¬ has (addrBits g ||| 0x3) pteHuge := by
          rw [has_kernelEntry (not_has_huge_addrBits hg)]
          decide
        exact ⟨fun h0 => absurd ((has_or _ _ _).mpr (Or.inr (by decide))) h0,
          fun h1 => absurd h1 hh, fun _ => ⟨(has_or _ _ _).mpr (Or.inr (by decide)), hx⟩⟩
      · exact entryOk_zero 0
    · rw [kernelMem_table m hne]
      rcases kernelTable_cases (idx (3 - 1) y) with h0 | ⟨hp, hh, hw, hu, hx, hf, -⟩
      · rw [h0]
        exact entryOk_zero 1
      · refine ⟨fun h => absurd hp h, fun _ => ⟨by decide, hw, hu, hx, ?_⟩,
          fun h => absurd (child_kernelTable _) h⟩
        rw [hf]
        exact Nat.mul_mod_left _ _
  · intro y k s t hs ht hu
    rcases (hnodes y (k + 1) t).mp ht with ⟨hk, -⟩ | ⟨-, -, rfl⟩
    · exact absurd hk k.succ_ne_zero
    · rw [kernelMem_table m hne] at hu
      rcases kernelTable_cases (idx (3 - (k + 1)) y) with h0 | ⟨-, -, -, hnu, -⟩
      · rw [h0] at hu
        exact absurd hu (by decide)
      · exact absurd hu hnu

theorem walk_kernelMem (m : PhysMem) (y : ℕ) : walk (kernelMem m root g) root y = kernelMap y := by
  have hroot := kernelMem_root m hne
  -- the address from the top index, the index of the gigabyte and the rest
  have hsplit : y % 2 ^ 48 = idx 3 y * 2 ^ 39 + idx 2 y * 2 ^ 30 + y % 2 ^ 30 := by
    simp only [idx]
    norm_num
    omega
  have hrest : y % 2 ^ 30 < 2 ^ 30 := Nat.mod_lt _ (by decide)
  rw [walk, kernelMap]
  by_cases h3 : idx 3 y = 0
  · have hentry : kernelMem m root g root (idx (3 - 0) y) = addrBits g ||| 0x3 := by
      rw [hroot, if_pos h3]
    have hunder : ∀ l : Leaf, l.under (addrBits g ||| 0x3) = { l with user := false } := by
      intro l
      have hw : has (addrBits g ||| 0x3) pteWrite := (has_or _ _ _).mpr (Or.inr (by decide))
      have hu : ¬ has (addrBits g ||| 0x3) pteUser := by
        rw [has_kernelEntry (not_has_user_addrBits hg)]
        decide
      have hx : ¬ has (addrBits g ||| 0x3) pteNx := by
        rw [has_kernelEntry (not_has_nx_addrBits hg)]
        decide
      simp only [Leaf.under, hw, hu, hx, decide_true, decide_false, Bool.true_and, Bool.false_and,
        Bool.false_or]
    rw [walkAt_of_child (d := 0) (c := g) (by rw [hentry, child_kernelEntry hg]), hentry,
      walkAt_of_leaf (d := 1) (by decide) (by rw [kernelMem_table m hne, child_kernelTable]),
      kernelMem_table m hne]
    show Option.map _ (if has (kernelTable (idx 2 y)) ptePresent then
      some (Leaf.of (kernelTable (idx 2 y)) (2 ^ 30) y) else none) = _
    rcases kernelTable_cases (idx 2 y) with h0 | ⟨hp, -, hw, -, hx, hf, hi⟩
    · have hi : idx 2 y ≠ 0 ∧ idx 2 y ≠ 1 ∧ idx 2 y ≠ 3 := by
        refine ⟨?_, ?_, ?_⟩ <;> intro h <;> rw [h] at h0 <;> exact absurd h0 (by decide)
      rw [h0, if_neg (by decide), if_neg (by omega)]
      rfl
    · have hrange : y % 2 ^ 48 < 2 ^ 31 ∨ (3 * 2 ^ 30 ≤ y % 2 ^ 48 ∧ y % 2 ^ 48 < 2 ^ 32) := by
        omega
      have haddr : idx 2 y * 2 ^ 18 * 4096 + y % 2 ^ 30 = y % 2 ^ 48 := by omega
      rw [if_pos hp, if_pos hrange, Option.map_some, hunder, Leaf.of, hf, haddr]
      simp only [hw, hx, decide_true, decide_false]
  · have hentry : kernelMem m root g root (idx (3 - 0) y) = 0 := by rw [hroot, if_neg h3]
    have hchild : tables.child 0 (0 : Word) = none :=
      child_eq_none_iff.mpr fun hc => absurd hc.2.1 (by decide)
    rw [walkAt_of_leaf (d := 0) (by decide) (by rw [hentry, hchild]), hentry, if_neg (by decide),
      if_neg (by omega)]

omit hg in
theorem stores_kernelMem (m : PhysMem) :
    setWord (setWord (setWord (setWord
      (update (update m root fun _ => 0) g fun _ => 0)
      root 0 (addrBits g ||| ptePresent ||| pteWrite))
      g 0 (addrBits 0 ||| ptePresent ||| pteWrite ||| pteHuge))
      g 1 (addrBits 0x40000 ||| ptePresent ||| pteWrite ||| pteHuge))
      g 3 (addrBits 0xC0000 ||| ptePresent ||| pteWrite ||| pteHuge ||| ptePcd) =
    kernelMem m root g := by
  have he : addrBits g ||| ptePresent ||| pteWrite = addrBits g ||| 0x3 := by
    rw [BitVec.or_assoc]
    rfl
  rw [he]
  funext f i
  by_cases hf : f = g
  · subst hf
    rw [kernelMem_table m hne, kernelTable]
    by_cases h3 : i = 3
    · rw [h3, setWord_self]
      decide
    rw [setWord_of_ne _ _ (Or.inr h3)]
    by_cases h1 : i = 1
    · rw [h1, setWord_self]
      decide
    rw [setWord_of_ne _ _ (Or.inr h1)]
    by_cases h0 : i = 0
    · rw [h0, setWord_self]
      decide
    rw [setWord_of_ne _ _ (Or.inr h0), setWord_of_ne _ _ (Or.inl hne), update_self,
      if_neg h0, if_neg h1, if_neg h3]
  · rw [setWord_of_ne _ _ (Or.inl hf), setWord_of_ne _ _ (Or.inl hf), setWord_of_ne _ _ (Or.inl hf),
      kernelMem]
    by_cases hr : f = root ∧ i = 0
    · rw [hr.1, hr.2, setWord_self, setWord_self]
    · rw [setWord_of_ne _ _ (not_and_or.mp hr), setWord_of_ne _ _ (not_and_or.mp hr),
        update_of_ne hf, update_of_ne hf]

end

/-- The rights of the page with the signal restorer. -/
def restorerFlags : Word := vmUser ||| vmRead ||| vmWrite ||| vmExec

/-- **What `vm_create` makes**: the kernel's part, and the restorer if it could be mapped. -/
structure Created (pm : ℕ → Option ℕ) (stub : Option ℕ) (s s' : VmSys) (root : ℕ) : Prop where
  inv : PageTables s'.mem root
  calls : s.calls ≤ s'.calls
  changed : ∀ f, s'.mem f ≠ s.mem f → IsTable s'.mem root f
  fresh : ∀ f, IsTable s'.mem root f → ∃ k, s.calls ≤ k ∧ k < s'.calls ∧ pm k = some f
  walk : (∀ y, walk s'.mem root y = kernelMap y) ∨ ∃ f, stub = some f ∧ ∀ y, walk s'.mem root y =
    remap restorerAddr (fun y => some (mapped (addrBits f) restorerFlags y)) kernelMap y

section

variable {pm : ℕ → Option ℕ} {stub : Option ℕ} {s s' : VmSys}

theorem created_kernelMem {root g : ℕ} (hroot : pm s.calls = some root)
    (hg : pm (s.calls + 1) = some g) (hlt : g < 2 ^ 40) (hne : g ≠ root) (stub : Option ℕ) :
    Created pm stub s ⟨kernelMem s.mem root g, s.calls + 3⟩ root := by
  have hnodes := nodeAt_kernelMem (m := s.mem) hlt hne
  refine ⟨kernelMem_inv hlt hne s.mem, Nat.le_add_right _ _, fun f hf => ?_, ?_,
    Or.inl (walk_kernelMem hlt hne s.mem)⟩
  · by_cases hfr : f = root
    · exact ⟨0, 0, (hnodes 0 0 f).mpr (Or.inl ⟨rfl, hfr⟩)⟩
    · by_cases hfg : f = g
      · exact ⟨0, 1, (hnodes 0 1 f).mpr (Or.inr ⟨rfl, by decide, hfg⟩)⟩
      · refine absurd (funext fun i => ?_) hf
        show kernelMem s.mem root g f i = _
        rw [kernelMem, setWord_of_ne _ _ (Or.inl hfr), update_of_ne hfg,
          update_of_ne hfr]
  · rintro f ⟨y, k, hf⟩
    rcases (hnodes y k f).mp hf with ⟨-, rfl⟩ | ⟨-, -, rfl⟩
    · exact ⟨_, le_rfl, Nat.lt_add_of_pos_right (by decide), hroot⟩
    · exact ⟨_, Nat.le_succ _, Nat.add_lt_add_left (by decide) _, hg⟩

theorem Created.supply {root b : ℕ} (h : Created pm stub s s' root)
    (hsup : Supply pm s.calls b fun _ => False) : Supply pm s'.calls b (IsTable s'.mem root) where
  page k f hk hb hf := by
    refine ⟨(hsup.page (h.calls.trans hk) hb hf).1, fun htab => ?_⟩
    obtain ⟨j, h1, h2, h3⟩ := h.fresh f htab
    exact hsup.apart h1 (h2.trans_le hk) hb h3 hf
  apart j k f hj := hsup.apart (h.calls.trans hj)

theorem Created.grow {root : ℕ} {s'' : VmSys} (h : Created pm stub s s' root)
    (hinv : PageTables s''.mem root) (hg : Grows pm root s' s'')
    (hwalk : (∀ y, Vm.walk s''.mem root y = kernelMap y) ∨
      ∃ f, stub = some f ∧ ∀ y, Vm.walk s''.mem root y =
        remap restorerAddr (fun y => some (mapped (addrBits f) restorerFlags y)) kernelMap y) :
    Created pm stub s s'' root where
  inv := hinv
  calls := h.calls.trans hg.calls
  changed f hf := by
    by_cases hs : s'.mem f = s.mem f
    · exact hg.changed f (by rwa [hs])
    · exact hg.keep f (h.changed f hs)
  fresh f hf := by
    rcases hg.fresh f hf with hf | ⟨k, h1, h2, h3⟩
    · obtain ⟨k, h1, h2, h3⟩ := h.fresh f hf
      exact ⟨k, h1, h2.trans_le hg.calls, h3⟩
    · exact ⟨k, h.calls.trans h1, h2, h3⟩
  walk := hwalk

theorem vmCreate_cases {ctx : VmContext} (hrun : vmCreate pm stub s = (some ctx, s')) :
    ∃ root g, pm s.calls = some root ∧ pm (s.calls + 1) = some g ∧ ctx = ⟨root, 0⟩ ∧
      (g ≠ root → s' = match stub with
        | none => ⟨kernelMem s.mem root g, s.calls + 3⟩
        | some f => (vmMapPage pm root restorerAddr (addrBits f) restorerFlags
            ⟨kernelMem s.mem root g, s.calls + 3⟩).2) := by
  rw [vmCreate] at hrun
  obtain ⟨root, s₁, hroot, hrun⟩ := of_bind_eq_some hrun
  rw [allocTable_run] at hroot
  rcases hpm₀ : pm s.calls with _ | root'
  · rw [hpm₀] at hroot
    cases hroot
  rw [hpm₀] at hroot
  cases hroot
  obtain ⟨g, s₂, hg, hrun⟩ := of_bind_eq_some hrun
  rw [allocTable_run] at hg
  rcases hpm₁ : pm (s.calls + 1) with _ | g'
  · simp only [hpm₁] at hg
    cases hg
  simp only [hpm₁] at hg
  cases hg
  simp only [setEntry, modify_bind_run] at hrun
  obtain ⟨page, s₃, hpage, hrun⟩ := of_bind_eq_some hrun
  rw [pmalloc] at hpage
  have hs₃ := (congrArg Prod.snd hpage).symm
  dsimp only at hs₃
  subst hs₃
  refine ⟨root, g, rfl, rfl, ?_, fun hne => ?_⟩
  · rcases stub with _ | f
    · exact (Option.some.inj (congrArg Prod.fst hrun)).symm
    · exact (Option.some.inj (congrArg Prod.fst hrun)).symm
  · rw [stores_kernelMem hne] at hrun
    rcases stub with _ | f
    · exact (congrArg Prod.snd hrun).symm
    · exact (congrArg Prod.snd hrun).symm

theorem vmCreate_spec {ctx : VmContext} (hsup : Supply pm s.calls (s.calls + 6) fun _ => False)
    (hrun : vmCreate pm stub s = (some ctx, s')) :
    Created pm stub s s' ctx.pml4 ∧ ctx.brk = 0 ∧ s'.calls ≤ s.calls + 6 := by
  obtain ⟨root, g, hroot, hg, rfl, hs'⟩ := vmCreate_cases hrun
  have hlt := (hsup.page (Nat.le_succ _) (by omega) hg).1
  have hne : g ≠ root := fun h => hsup.apart le_rfl (Nat.lt_succ_self _) (by omega) hroot (h ▸ hg)
  have hker := created_kernelMem hroot hg hlt hne stub
  have hwk := walk_kernelMem hlt hne s.mem
  specialize hs' hne
  rcases stub with _ | f
  · rw [hs']
    exact ⟨hker, rfl, Nat.add_le_add_left (by decide) _⟩
  · obtain ⟨t, ht, htc, hkept, -⟩ | ⟨t, ht, htc, hre⟩ :=
      vmMapPage_spec (s := ⟨kernelMem s.mem root g, s.calls + 3⟩) hker.inv
        (by decide : restorerAddr % 4096 = 0) (addrBits f) restorerFlags (hker.supply hsup)
    · obtain rfl : s' = t := by
        rw [hs']
        exact congrArg Prod.snd ht
      refine ⟨hker.grow hkept.inv hkept.grows (Or.inl fun y => (hkept.walk y).trans (hwk y)), rfl, htc⟩
    · obtain rfl : s' = t := by
        rw [hs']
        exact congrArg Prod.snd ht
      refine ⟨hker.grow hre.inv hre.grows (Or.inr ⟨f, rfl, fun y => ?_⟩), rfl, htc⟩
      rw [hre.walk, remap, remap, hwk]

end

/-! ## Histories of an address space -/

/-- The calls that change the tables of an address space.  Each call of `vm_map_page` comes with the
answers of `pmalloc` to it. -/
inductive MapCall where
  | map (pm : ℕ → Option ℕ) (vaddr : ℕ) (phys flags : Word)
  | unmap (vaddr len : ℕ)

/-- One call; a call of `vm_unmap` that does not return leads nowhere. -/
def mapStep (root : ℕ) (m : PhysMem) : MapCall → Option PhysMem
  | .map pm vaddr phys flags => some (vmMapPage pm root vaddr phys flags ⟨m, 0⟩).2.mem
  | .unmap vaddr len => (vmUnmap m (some root) vaddr len).map fun r => r.2.1

/-- The pages that a call is given are not tables in use. -/
def TablesFresh (root : ℕ) (m : PhysMem) : MapCall → Prop
  | .map pm _ _ _ => Supply pm 0 3 (IsTable m root)
  | .unmap _ _ => True

theorem vmMapPage_unaligned {pm : ℕ → Option ℕ} {root va : ℕ} (hva : va % 4096 ≠ 0)
    (phys flags : Word) (s : VmSys) : vmMapPage pm root va phys flags s = (none, s) := by
  rw [vmMapPage, if_pos hva]
  rfl

theorem pageTables_of_run {root : ℕ} {m m' : PhysMem} {calls : List MapCall}
    (hrun : Run (mapStep root) (TablesFresh root) m calls m') (h : PageTables m root) :
    PageTables m' root := by
  refine hrun.invariant (I := fun m => PageTables m root) (fun m call m' h hfresh hstep => ?_) h
  cases call with
  | map pm va phys flags =>
    cases hstep
    by_cases hva : va % 4096 = 0
    · obtain ⟨t, ht, -, hkept, -⟩ | ⟨t, ht, -, hre⟩ :=
        vmMapPage_spec (s := ⟨m, 0⟩) h hva phys flags hfresh
      · rw [ht]
        exact hkept.inv
      · rw [ht]
        exact hre.inv
    · rw [vmMapPage_unaligned hva]
      exact h
  | unmap va len =>
    obtain ⟨r, hr, rfl⟩ := Option.map_eq_some_iff.mp hstep
    exact vmUnmap_spec h hr

section

variable {pm₀ : ℕ → Option ℕ} {stub : Option ℕ} {m₀ m : PhysMem} {ctx : VmContext} {s : VmSys}
  {calls : List MapCall}

/-- The address space `ctx` with memory `m` has this history. -/
structure Built (pm₀ : ℕ → Option ℕ) (stub : Option ℕ) (m₀ : PhysMem) (ctx : VmContext) (s : VmSys)
    (calls : List MapCall) (m : PhysMem) : Prop where
  create : vmCreate pm₀ stub ⟨m₀, 0⟩ = (some ctx, s)
  supply : Supply pm₀ 0 6 fun _ => False
  run : Run (mapStep ctx.pml4) (TablesFresh ctx.pml4) s.mem calls m

theorem Built.inv (h : Built pm₀ stub m₀ ctx s calls m) : PageTables m ctx.pml4 :=
  pageTables_of_run h.run (vmCreate_spec (s := ⟨m₀, 0⟩) h.supply h.create).1.inv

/-- **A call of `vm_map_page` concerns one page.**  In every address space: if it returns 0, the page
has the translation and the rights that were asked for, and every other page keeps its own; if it
returns -1, every page does. -/
theorem vmMapPage_exact (h : Built pm₀ stub m₀ ctx s calls m) {va : ℕ} (hva : va % 4096 = 0)
    (hlt : va < 2 ^ 48) (phys flags : Word) {pm : ℕ → Option ℕ}
    (hfresh : Supply pm 0 3 (IsTable m ctx.pml4)) :
    match vmMapPage pm ctx.pml4 va phys flags ⟨m, 0⟩ with
    | (some _, s') => ∀ y < 2 ^ 48, walk s'.mem ctx.pml4 y =
        if y / 4096 = va / 4096 then some (mapped phys flags y) else walk m ctx.pml4 y
    | (none, s') => ∀ y < 2 ^ 48, walk s'.mem ctx.pml4 y = walk m ctx.pml4 y := by
  obtain ⟨t, ht, -, hkept, -⟩ | ⟨t, ht, -, hre⟩ :=
    vmMapPage_spec (s := ⟨m, 0⟩) h.inv hva phys flags hfresh
  · rw [ht]
    exact fun y _ => hkept.walk y
  · rw [ht]
    intro y hy
    rw [hre.walk, remap]
    refine if_congr ?_ rfl rfl
    rw [Nat.mod_eq_of_lt (show y / 4096 < 2 ^ 36 by omega),
      Nat.mod_eq_of_lt (show va / 4096 < 2 ^ 36 by omega)]

end

/-- Pages given out one after the other, from page `c` on. -/
def pagesFrom (c k : ℕ) : Option ℕ := some (k + c)

theorem supply_pagesFrom {c a b : ℕ} {used : ℕ → Prop} (hc : c + b ≤ 2 ^ 40)
    (hused : ∀ k < b, ¬ used (k + c)) : Supply (pagesFrom c) a b used where
  page k g _ hb hg := by
    cases hg
    exact ⟨by omega, hused k hb⟩
  apart j k g _ hjk _ hj hk := by
    cases hj
    have := Option.some.inj hk
    omega

/-- The memory after the first `vm_create` of a machine with empty memory. -/
def firstMem : PhysMem := (vmCreate (pagesFrom 1) none ⟨fun _ _ => 0, 0⟩).2.mem

theorem built_first : Built (pagesFrom 1) none (fun _ _ => 0) ⟨1, 0⟩
    (vmCreate (pagesFrom 1) none ⟨fun _ _ => 0, 0⟩).2 [] firstMem where
  create := rfl
  supply := supply_pagesFrom (by decide) fun _ _ h => h
  run := .nil _

theorem created_first : Created (pagesFrom 1) none ⟨fun _ _ => 0, 0⟩
    (vmCreate (pagesFrom 1) none ⟨fun _ _ => 0, 0⟩).2 1 ∧
    (vmCreate (pagesFrom 1) none ⟨fun _ _ => 0, 0⟩).2.calls ≤ 0 + 6 := by
  obtain ⟨hcreated, -, hcalls⟩ := vmCreate_spec (s := ⟨fun _ _ => 0, 0⟩) built_first.supply
    built_first.create
  exact ⟨hcreated, hcalls⟩

theorem fresh_first {b : ℕ} (hb : b ≤ 2 ^ 30) : Supply (pagesFrom 10) 0 b (IsTable firstMem 1) := by
  refine supply_pagesFrom (by omega) fun k _ htab => ?_
  obtain ⟨j, -, hj, hpage⟩ := created_first.1.fresh _ htab
  have hpage' : j + 1 = k + 10 := Option.some.inj hpage
  have hcalls := created_first.2
  omega

theorem walk_first (y : ℕ) : walk firstMem 1 y = kernelMap y := by
  rcases created_first.1.walk with h | ⟨f, hf, -⟩
  · exact h y
  · cases hf

theorem vmMapPage_exact_first :
    match vmMapPage (pagesFrom 10) 1 0x400000 0x123000 (vmUser ||| vmWrite) ⟨firstMem, 0⟩ with
    | (some _, s') => ∀ y < 2 ^ 48, walk s'.mem 1 y =
        if y / 4096 = 0x400000 / 4096 then some (mapped 0x123000 (vmUser ||| vmWrite) y)
        else walk firstMem 1 y
    | (none, s') => ∀ y < 2 ^ 48, walk s'.mem 1 y = walk firstMem 1 y :=
  vmMapPage_exact built_first (by decide : 0x400000 % 4096 = 0) (by decide) _ _
    (fresh_first (by decide))

/-- `vm_map_page` takes the address of a page: the low bits of another address are dropped. -/
theorem low_bits_dropped :
    (vmMapPage (pagesFrom 10) 1 0x400000 0x1001 vmUser ⟨firstMem, 0⟩).1 = some () ∧
    (walk (vmMapPage (pagesFrom 10) 1 0x400000 0x1001 vmUser ⟨firstMem, 0⟩).2.mem 1 0x400000).map
      Leaf.addr = some 0x1000 := by
  decide +kernel

end BananaOS.Vm
