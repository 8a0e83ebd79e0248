import BananaOS.Lib.Bytes

/-!
# Trees of index blocks

A file in a block store is found through a fixed set of root pointers.  A root of level 0 points to
a block of data; a root of level `l + 1` points to an index block, a table of 32-bit block numbers,
each of level `l`.  Number 0 stands for "nothing there".
-/

namespace BlockTree

open Bytes

inductive Slot (R : Type) where
  | root (r : R)
  | entry (p : Slot R) (k : ℕ)
  deriving DecidableEq

/-- The level of each root, and the number of entries of an index block. -/
structure Shape (R : Type) where
  level : R → ℕ
  fan : ℕ

variable {R ι : Type} (sh : Shape R)

def Slot.level : Slot R → ℕ
  | .root r => sh.level r
  | .entry p _ => p.level - 1

def Slot.Valid : Slot R → Prop
  | .root _ => True
  | .entry p k => p.Valid ∧ 0 < p.level sh ∧ k < sh.fan

def blockAt (D : ℕ → Bytes) (ptr : R → ℕ) : Slot R → ℕ
  | .root r => ptr r
  | .entry p k =>
    if blockAt D ptr p = 0 then 0 else rd32 (D (blockAt D ptr p)) (k * 4)

variable {sh} {D D' : ℕ → Bytes} {ptr : R → ℕ}

theorem blockAt_entry_of_ne {p : Slot R} {k : ℕ} (h : blockAt D ptr p ≠ 0) :
    blockAt D ptr (.entry p k) = rd32 (D (blockAt D ptr p)) (k * 4) :=
  if_neg h

theorem blockAt_entry_of_eq {p : Slot R} {k : ℕ} (h : blockAt D ptr p = 0) :
    blockAt D ptr (.entry p k) = 0 :=
  if_pos h

theorem blockAt_congr
    (h : ∀ p : Slot R, p.Valid sh → 0 < p.level sh → blockAt D ptr p ≠ 0 →
      D' (blockAt D ptr p) = D (blockAt D ptr p)) :
    ∀ q : Slot R, q.Valid sh → blockAt D' ptr q = blockAt D ptr q
  | .root _, _ => rfl
  | .entry p k, hq => by
    obtain ⟨hp, hl, _⟩ := hq
    have ih := blockAt_congr h p hp
    by_cases h0 : blockAt D ptr p = 0
    · rw [blockAt_entry_of_eq h0, blockAt_entry_of_eq (ih.trans h0)]
    · rw [blockAt_entry_of_ne h0, blockAt_entry_of_ne (by rwa [ih]), ih, h p hp hl h0]

/-! ## Many trees -/

/-- The trees of the live owners: every block in one of them is `ok`, and is there once. -/
structure Sound (sh : Shape R) (D : ℕ → Bytes) (live : ι → Prop) (ptr : ι → R → ℕ)
    (ok : ℕ → Prop) : Prop where
  ok : ∀ n, live n → ∀ q : Slot R, q.Valid sh → blockAt D (ptr n) q ≠ 0 →
    ok (blockAt D (ptr n) q)
  inj : ∀ n n', live n → live n' → ∀ q q' : Slot R, q.Valid sh → q'.Valid sh →
    blockAt D (ptr n) q ≠ 0 → blockAt D (ptr n) q = blockAt D (ptr n') q' → n = n' ∧ q = q'

section Sound

variable {live : ι → Prop} {ptrs ptrs' : ι → R → ℕ} {ok ok' : ℕ → Prop}

variable (h : Sound sh D live ptrs ok)

include h

theorem Sound.congr (hok : ∀ b, ok b → ok' b) (he : ∀ n, live n → ∀ q : Slot R, q.Valid sh →
      blockAt D' (ptrs' n) q = blockAt D (ptrs n) q) : Sound sh D' live ptrs' ok' where
  ok n hn q hq h0 := by
    rw [he n hn q hq] at h0 ⊢
    exact hok _ (h.ok n hn q hq h0)
  inj n n' hn hn' q q' hq hq' h0 heq := by
    rw [he n hn q hq] at h0 heq
    rw [he n' hn' q' hq'] at heq
    exact h.inj n n' hn hn' q q' hq hq' h0 heq

theorem Sound.mono_live {live' : ι → Prop}
    (hl : ∀ n, live' n → live n) : Sound sh D live' ptrs ok where
  ok n hn := h.ok n (hl n hn)
  inj n n' hn hn' := h.inj n n' (hl n hn) (hl n' hn')

theorem Sound.frame (hD : ∀ b, ok b → D' b = D b) {n : ι}
    (hn : live n) {q : Slot R} (hq : q.Valid sh) :
    blockAt D' (ptrs n) q = blockAt D (ptrs n) q :=
  blockAt_congr (fun p hp _ h0 => hD _ (h.ok n hn p hp h0)) q hq

theorem Sound.write_data {n : ι} (hn : live n) {q : Slot R}
    (hq : q.Valid sh) (hl : q.level sh = 0) (h0 : blockAt D (ptrs n) q ≠ 0)
    (hD : ∀ b, ok b → b ≠ blockAt D (ptrs n) q → D' b = D b) {n' : ι} (hn' : live n')
    {q' : Slot R} (hq' : q'.Valid sh) :
    blockAt D' (ptrs n') q' = blockAt D (ptrs n') q' := by
  refine blockAt_congr (fun p hp hlp hp0 => hD _ (h.ok n' hn' p hp hp0) fun he => ?_) q' hq'
  -- the block would be at a slot of level 0 and at one of a higher level
  obtain ⟨-, rfl⟩ := h.inj n' n hn' hn p q hp hq hp0 he
  omega

end Sound

/-! ## Adding a block -/

section Attach

variable [DecidableEq R] {ok : ℕ → Prop} {b : ℕ}

def EmptyTable (sh : Shape R) (D : ℕ → Bytes) (b : ℕ) : Prop :=
  ∀ k < sh.fan, rd32 (D b) (k * 4) = 0

theorem blockAt_attach_root {r : R} (h0 : 0 < sh.level r → ptr r = 0) (hb : b ≠ 0)
    (hok : ∀ q : Slot R, q.Valid sh → blockAt D ptr q ≠ 0 →
      D' (blockAt D ptr q) = D (blockAt D ptr q))
    (hnew : 0 < sh.level r → EmptyTable sh D' b) :
    ∀ q : Slot R, q.Valid sh → blockAt D' (Function.update ptr r b) q =
      if q = .root r then b else blockAt D ptr q
  | .root r', _ => by
    by_cases he : r' = r
    · subst he
      simp [blockAt]
    · have hne : (Slot.root r' : Slot R) ≠ .root r := fun h => he (Slot.root.inj h)
      rw [if_neg hne]
      exact Function.update_of_ne he b ptr
  | .entry p k, hq => by
    obtain ⟨hp, hl, hk⟩ := hq
    have ih := blockAt_attach_root h0 hb hok hnew p hp
    rw [if_neg (fun h => nomatch h)]
    by_cases hpr : p = .root r
    · -- the entries of the new table, of which there were none before
      subst hpr
      rw [if_pos rfl] at ih
      rw [blockAt_entry_of_ne (by rwa [ih]), ih, hnew hl k hk]
      exact (blockAt_entry_of_eq (D := D) (p := .root r) (h0 hl)).symm
    · rw [if_neg hpr] at ih
      by_cases hp0 : blockAt D ptr p = 0
      · rw [blockAt_entry_of_eq hp0, blockAt_entry_of_eq (ih.trans hp0)]
      · rw [blockAt_entry_of_ne hp0, blockAt_entry_of_ne (by rwa [ih]), ih, hok p hp hp0]

theorem blockAt_attach_entry {p : Slot R} {k : ℕ}
    (hp0 : blockAt D ptr p ≠ 0)
    (h0 : 0 < (Slot.entry p k).level sh → blockAt D ptr (.entry p k) = 0) (hb : b ≠ 0)
    (hb32 : b < 2 ^ 32)
    (htab : D' (blockAt D ptr p) = wr32 (D (blockAt D ptr p)) (k * 4) b)
    (hok : ∀ q : Slot R, q.Valid sh → blockAt D ptr q ≠ 0 → q ≠ p →
      D' (blockAt D ptr q) = D (blockAt D ptr q))
    (hnew : 0 < (Slot.entry p k).level sh → EmptyTable sh D' b) :
    ∀ q : Slot R, q.Valid sh → blockAt D' ptr q =
      if q = .entry p k then b else blockAt D ptr q
  | .root r, _ => by
    rw [if_neg (fun h => nomatch h)]
    rfl
  | .entry p' k', hq => by
    obtain ⟨hp', hl', hk'⟩ := hq
    have ih := blockAt_attach_entry hp0 h0 hb hb32 htab hok hnew p' hp'
    by_cases hpq : p' = .entry p k
    · -- the entries of the new table
      subst hpq
      have hne : (Slot.entry (.entry p k) k' : Slot R) ≠ .entry p k := by
        intro h
        have := congrArg sizeOf (Slot.entry.inj h).1
        simp at this
        omega
      rw [if_pos rfl] at ih
      rw [if_neg hne, blockAt_entry_of_ne (by rwa [ih]), ih, hnew hl' k' hk']
      exact (blockAt_entry_of_eq (h0 hl')).symm
    · rw [if_neg hpq] at ih
      by_cases hpp : p' = p
      · subst hpp
        rw [blockAt_entry_of_ne (by rwa [ih]), ih, htab]
        by_cases hkk : k' = k
        · subst hkk
          rw [if_pos rfl, rd32_wr32, Nat.mod_eq_of_lt hb32]
        · have hne : (Slot.entry p' k' : Slot R) ≠ .entry p' k :=
            fun h => hkk (Slot.entry.inj h).2
          rw [if_neg hne, rd32_wr32_of_disjoint (by omega), blockAt_entry_of_ne hp0]
      · have hne : (Slot.entry p' k' : Slot R) ≠ .entry p k :=
          fun h => hpp (Slot.entry.inj h).1
        rw [if_neg hne]
        by_cases hp0' : blockAt D ptr p' = 0
        · rw [blockAt_entry_of_eq hp0', blockAt_entry_of_eq (ih.trans hp0')]
        · rw [blockAt_entry_of_ne hp0', blockAt_entry_of_ne (by rwa [ih]), ih,
            hok p' hp' hp0' hpp]

theorem Sound.attach {live : ι → Prop} {ptrs ptrs' : ι → R → ℕ} {ok' : ℕ → Prop}
    (h : Sound sh D live ptrs ok) (hok : ∀ x, ok x → ok' x) {n : ι} {q : Slot R}
    (hbok : ok' b) (hfresh : ¬ ok b)
    (hat : ∀ q' : Slot R, q'.Valid sh → blockAt D' (ptrs' n) q' =
      if q' = q then b else blockAt D (ptrs n) q')
    (hothers : ∀ n', live n' → n' ≠ n → ∀ q' : Slot R, q'.Valid sh →
      blockAt D' (ptrs' n') q' = blockAt D (ptrs n') q') :
    Sound sh D' live ptrs' ok' := by
  -- every slot but the new one holds what it held, and that is not the new block
  have hcase : ∀ m, live m → ∀ x : Slot R, x.Valid sh → blockAt D' (ptrs' m) x ≠ 0 →
      (m = n ∧ x = q ∧ blockAt D' (ptrs' m) x = b) ∨
        (blockAt D' (ptrs' m) x = blockAt D (ptrs m) x ∧ ok (blockAt D (ptrs m) x)) := by
    intro m hm x hx hx0
    by_cases hmn : m = n
    · subst hmn
      rw [hat x hx] at hx0 ⊢
      by_cases hxq : x = q
      · exact .inl ⟨rfl, hxq, if_pos hxq⟩
      · rw [if_neg hxq] at hx0 ⊢
        exact .inr ⟨rfl, h.ok m hm x hx hx0⟩
    · rw [hothers m hm hmn x hx] at hx0 ⊢
      exact .inr ⟨rfl, h.ok m hm x hx hx0⟩
  refine ⟨fun m hm x hx hx0 => ?_, fun m m' hm hm' x x' hx hx' hx0 he => ?_⟩
  · rcases hcase m hm x hx hx0 with ⟨-, -, e⟩ | ⟨e, hk⟩
    · rwa [e]
    · rw [e]
      exact hok _ hk
  · rcases hcase m hm x hx hx0 with ⟨rfl, rfl, e⟩ | ⟨e, hk⟩ <;>
      rcases hcase m' hm' x' hx' (he ▸ hx0) with ⟨rfl, rfl, e'⟩ | ⟨e', hk'⟩
    · exact ⟨rfl, rfl⟩
    · exact absurd ((e.symm.trans he).trans e' ▸ hk') hfresh
    · exact absurd ((e.symm.trans he).trans e' ▸ hk) hfresh
    · exact h.inj m m' hm hm' x x' hx hx' (e ▸ hx0) ((e.symm.trans he).trans e')

end Attach

end BlockTree
