import Mathlib

/-!
# Radix trees in a memory of nodes

A node is a row of entries, and `m t i` is entry `i` of node `t`.  A key chooses one entry at every
depth; the entry may point to the node below.  A `Shape` says how keys choose and what entries point
to, so `nodeAt m root x d` is the node that key `x` reaches at depth `d`.
-/

namespace RadixTree

structure Shape (ε κ : Type*) where
  /-- The index that a key chooses at a depth. -/
  ix : ℕ → κ → ℕ
  /-- The node that an entry at a depth points to. -/
  child : ℕ → ε → Option ℕ

variable {ε κ : Type*} (S : Shape ε κ)

namespace Shape

def nodeAt (m : ℕ → ℕ → ε) (root : ℕ) (x : κ) : ℕ → Option ℕ
  | 0 => some root
  | d + 1 => (nodeAt m root x d).bind fun t => S.child d (m t (S.ix d x))

def Agree (d : ℕ) (x y : κ) : Prop := ∀ k < d, S.ix k x = S.ix k y

def IsNode (m : ℕ → ℕ → ε) (root t : ℕ) : Prop := ∃ x d, S.nodeAt m root x d = some t

def IsTree (m : ℕ → ℕ → ε) (root : ℕ) : Prop :=
  ∀ ⦃x y : κ⦄ ⦃d d' t : ℕ⦄, S.nodeAt m root x d = some t → S.nodeAt m root y d' = some t →
    d = d' ∧ S.Agree d x y

end Shape

variable {S} {m m' : ℕ → ℕ → ε} {root : ℕ} {x y : κ} {d k t : ℕ}

theorem Agree.symm (h : S.Agree d x y) : S.Agree d y x := fun k hk => (h k hk).symm

theorem Agree.mono (h : S.Agree d x y) (hk : k ≤ d) : S.Agree k x y :=
  fun j hj => h j (hj.trans_le hk)

theorem agree_succ : S.Agree (d + 1) x y ↔ S.Agree d x y ∧ S.ix d x = S.ix d y := by
  constructor
  · intro h
    exact ⟨Agree.mono h d.le_succ, h d d.lt_succ_self⟩
  · rintro ⟨h, hd⟩ k hk
    rcases Nat.lt_succ_iff_lt_or_eq.mp hk with hk | rfl
    · exact h k hk
    · exact hd

theorem nodeAt_succ (h : S.nodeAt m root x d = some t) :
    S.nodeAt m root x (d + 1) = S.child d (m t (S.ix d x)) := by
  rw [Shape.nodeAt, h, Option.bind_some]

theorem exists_of_nodeAt_succ (h : S.nodeAt m root x (d + 1) = some t) :
    ∃ s, S.nodeAt m root x d = some s ∧ S.child d (m s (S.ix d x)) = some t :=
  Option.bind_eq_some_iff.mp h

theorem nodeAt_none_of_le (h : S.nodeAt m root x d = none) (hk : d ≤ k) :
    S.nodeAt m root x k = none := by
  induction k, hk using Nat.le_induction with
  | base => exact h
  | succ k _ ih => rw [Shape.nodeAt, ih, Option.bind_none]

theorem nodeAt_eq_of_agree (h : S.Agree d x y) :
    S.nodeAt m root x d = S.nodeAt m root y d := by
  induction d with
  | zero => rfl
  | succ d ih =>
    obtain ⟨hd, hix⟩ := agree_succ.mp h
    rw [Shape.nodeAt, Shape.nodeAt, ih hd, hix]

theorem nodeAt_congr (h : ∀ k < d, ∀ s, S.nodeAt m root x k = some s →
    m' s (S.ix k x) = m s (S.ix k x)) : S.nodeAt m' root x d = S.nodeAt m root x d := by
  induction d with
  | zero => rfl
  | succ d ih =>
    rw [Shape.nodeAt, Shape.nodeAt, ih fun k hk => h k (hk.trans d.lt_succ_self)]
    rcases hn : S.nodeAt m root x d with _ | s
    · rfl
    · rw [Option.bind_some, Option.bind_some, h d d.lt_succ_self s hn]

/-! ## Edits of one entry -/

/-- `m'` differs from `m` in the entry that `x` chooses at depth `d`, in node `t`, as far as the nodes
of the tree are concerned. -/
structure Edit (S : Shape ε κ) (m m' : ℕ → ℕ → ε) (root : ℕ) (x : κ) (d t : ℕ) : Prop where
  node : S.nodeAt m root x d = some t
  keep : ∀ s i, S.IsNode m root s → s ≠ t ∨ i ≠ S.ix d x → m' s i = m s i

namespace Edit

variable (h : Edit S m m' root x d t) (htree : S.IsTree m root)

include h htree

theorem entry_of_lt (hk : k < d) {s : ℕ} (hs : S.nodeAt m root y k = some s) (i : ℕ) :
    m' s i = m s i := by
  refine h.keep s i ⟨y, k, hs⟩ (Or.inl ?_)
  rintro rfl
  exact hk.ne (htree hs h.node).1

theorem nodeAt_of_le (hk : k ≤ d) : S.nodeAt m' root y k = S.nodeAt m root y k :=
  nodeAt_congr fun _ hj _ hs => h.entry_of_lt htree (hj.trans_le hk) hs _

theorem entry_of_apart (hy : ¬ S.Agree (d + 1) x y) {s : ℕ} (hs : S.nodeAt m root y k = some s) :
    m' s (S.ix k y) = m s (S.ix k y) := by
  refine h.keep s _ ⟨y, k, hs⟩ ?_
  by_contra hcon
  obtain ⟨rfl, hix⟩ : s = t ∧ S.ix k y = S.ix d x := by
    push Not at hcon
    exact hcon
  obtain ⟨rfl, hag⟩ := htree h.node hs
  exact hy (agree_succ.mpr ⟨hag, hix.symm⟩)

theorem nodeAt_of_apart (hy : ¬ S.Agree (d + 1) x y) (k : ℕ) :
    S.nodeAt m' root y k = S.nodeAt m root y k :=
  nodeAt_congr fun _ _ _ hs => h.entry_of_apart htree hy hs

theorem entry_of_ne (hk : k ≠ d) {s : ℕ} (hs : S.nodeAt m root y k = some s) (i : ℕ) :
    m' s i = m s i := by
  refine h.keep s i ⟨y, k, hs⟩ (Or.inl ?_)
  rintro rfl
  exact hk (htree hs h.node).1

theorem nodeAt_succ (hy : S.Agree (d + 1) x y) :
    S.nodeAt m' root y (d + 1) = S.child d (m' t (S.ix d x)) := by
  have hnode : S.nodeAt m' root y d = some t := by
    rw [h.nodeAt_of_le htree le_rfl, ← nodeAt_eq_of_agree (Agree.mono hy d.le_succ), h.node]
  rw [RadixTree.nodeAt_succ hnode, (agree_succ.mp hy).2]

theorem nodeAt_eq (hchild : S.child d (m' t (S.ix d x)) = S.child d (m t (S.ix d x))) (y : κ) (k : ℕ) :
    S.nodeAt m' root y k = S.nodeAt m root y k := by
  by_cases hy : S.Agree (d + 1) x y
  · induction k with
    | zero => rfl
    | succ k ih =>
      -- the only entry that is read anew is the edited one, and its child is the old one
      rcases hs : S.nodeAt m root y k with _ | s
      · rw [nodeAt_none_of_le (ih.trans hs) k.le_succ, nodeAt_none_of_le hs k.le_succ]
      · rw [RadixTree.nodeAt_succ (ih.trans hs), RadixTree.nodeAt_succ hs]
        by_cases hk : k = d
        · subst hk
          have ht : some s = some t := by
            rw [← hs, ← nodeAt_eq_of_agree (Agree.mono hy k.le_succ), h.node]
          cases ht
          rw [← (agree_succ.mp hy).2, hchild]
        · rw [h.entry_of_ne htree hk hs]
  · exact h.nodeAt_of_apart htree hy k

theorem isTree_of_child_eq (hchild : S.child d (m' t (S.ix d x)) = S.child d (m t (S.ix d x))) :
    S.IsTree m' root := by
  intro y z k j s hy hz
  rw [h.nodeAt_eq htree hchild] at hy hz
  exact htree hy hz

theorem nodeAt_attach {g : ℕ} (hold : S.child d (m t (S.ix d x)) = none)
    (hnew : S.child d (m' t (S.ix d x)) = some g) (hleaf : ∀ i, S.child (d + 1) (m' g i) = none)
    (y : κ) (k s : ℕ) : S.nodeAt m' root y k = some s ↔
      S.nodeAt m root y k = some s ∨ (k = d + 1 ∧ S.Agree (d + 1) x y ∧ s = g) := by
  by_cases hy : S.Agree (d + 1) x y
  · rcases Nat.lt_trichotomy k (d + 1) with hk | rfl | hk
    · rw [h.nodeAt_of_le htree (Nat.lt_succ_iff.mp hk)]
      simp only [hk.ne, false_and, or_false]
    · have hnode : S.nodeAt m root y d = some t := by
        rw [← nodeAt_eq_of_agree (Agree.mono hy d.le_succ), h.node]
      rw [h.nodeAt_succ htree hy, hnew, RadixTree.nodeAt_succ hnode, ← (agree_succ.mp hy).2, hold]
      simp [hy, eq_comm]
    · -- there was nothing below the entry, and the new node has no children
      have hnode : S.nodeAt m root y d = some t := by
        rw [← nodeAt_eq_of_agree (Agree.mono hy d.le_succ), h.node]
      have hnone : S.nodeAt m root y k = none := by
        refine nodeAt_none_of_le ?_ hk.le
        rw [RadixTree.nodeAt_succ hnode, ← (agree_succ.mp hy).2, hold]
      have hnone' : S.nodeAt m' root y k = none := by
        refine nodeAt_none_of_le ?_ (Nat.succ_le_of_lt hk)
        rw [RadixTree.nodeAt_succ ((h.nodeAt_succ htree hy).trans hnew), hleaf]
      rw [hnone, hnone']
      simp only [reduceCtorEq, hk.ne', false_and, or_false]
  · rw [h.nodeAt_of_apart htree hy]
    simp only [hy, false_and, and_false, or_false]

theorem isTree_attach {g : ℕ} (hfresh : ¬ S.IsNode m root g)
    (hold : S.child d (m t (S.ix d x)) = none) (hnew : S.child d (m' t (S.ix d x)) = some g)
    (hleaf : ∀ i, S.child (d + 1) (m' g i) = none) : S.IsTree m' root := by
  intro y z k j s hy hz
  rw [h.nodeAt_attach htree hold hnew hleaf] at hy hz
  rcases hy with hy | ⟨rfl, hy, hg⟩ <;> rcases hz with hz | ⟨rfl, hz, hg'⟩
  · exact htree hy hz
  · exact absurd ⟨y, k, hg' ▸ hy⟩ hfresh
  · exact absurd ⟨z, j, hg ▸ hz⟩ hfresh
  · exact ⟨rfl, fun i hi => (hy i hi).symm.trans (hz i hi)⟩

end Edit

end RadixTree
