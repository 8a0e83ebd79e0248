import Mathlib

/-!
# Exclusive ownership

A pool of objects, some of them live, and a family of places each of which may hold one object.
`Owns own live` says that the two fit: what is held is live, it is held in one place, and everything
live is held.  This is what it takes for an object to be given back exactly when the place that
holds it is cleared.
-/

namespace Ownership

open Function

variable {ι κ : Type*}

/-- **Everything live is held in exactly one place.** -/
structure Owns (own : ι → Option κ) (live : κ → Prop) : Prop where
  isLive : ∀ {i k}, own i = some k → live k
  unique : ∀ {i j k}, own i = some k → own j = some k → i = j
  owner : ∀ {k}, live k → ∃ i, own i = some k

/-- **What is held is live, and it is held in one place.** -/
structure Holds (own : ι → Option κ) (live : κ → Prop) : Prop where
  isLive : ∀ {i k}, own i = some k → live k
  unique : ∀ {i j k}, own i = some k → own j = some k → i = j

/-- **What is held is live and held in one place, and if `full`, everything live is held.** -/
structure Owned (full : Prop) (own : ι → Option κ) (live : κ → Prop) : Prop extends
    Holds own live where
  owner : full → ∀ {k}, live k → ∃ i, own i = some k

variable {full : Prop} {own own' : ι → Option κ} {live live' : κ → Prop} {i j : ι} {k : κ}

theorem Owns.owned (h : Owns own live) : Owned True own live :=
  ⟨⟨fun hi => h.isLive hi, fun hi hj => h.unique hi hj⟩, fun _ _ hk => h.owner hk⟩

theorem Owned.owns (h : Owned True own live) : Owns own live :=
  ⟨fun hi => h.isLive hi, fun hi hj => h.unique hi hj, fun hk => h.owner trivial hk⟩

theorem Holds.owned (h : Holds own live) : Owned False own live := ⟨h, False.elim⟩

theorem Owned.congr (h : Owned full own live) (hown : own' = own) (hlive : ∀ k, live' k ↔ live k) :
    Owned full own' live' := by
  subst hown
  exact ⟨⟨fun hi => (hlive _).mpr (h.isLive hi), fun hi hj => h.unique hi hj⟩,
    fun hf _ hk => h.owner hf ((hlive _).mp hk)⟩

theorem Holds.ne_of_not_live (h : Holds own live) (hk : ¬ live k) (i : ι) : own i ≠ some k :=
  fun hi => hk (h.isLive hi)

variable [DecidableEq ι]

theorem update_eq_some {o : Option κ} (h : update own i o j = some k) :
    (j = i ∧ o = some k) ∨ (j ≠ i ∧ own j = some k) := by
  by_cases hji : j = i
  · rw [hji, update_self] at h
    exact .inl ⟨hji, h⟩
  · rw [update_of_ne hji] at h
    exact .inr ⟨hji, h⟩

section

variable (h : Owned full own live)

include h

theorem Owned.take (hi : full → own i = none) (hk : ¬ live k) :
    Owned full (update own i (some k)) fun k' => live k' ∨ k' = k := by
  refine ⟨⟨fun hj => ?_, fun hj hj' => ?_⟩, fun hf _ hk' => ?_⟩
  · rcases update_eq_some hj with ⟨-, hk'⟩ | ⟨-, hold⟩
    · exact .inr (Option.some.inj hk').symm
    · exact .inl (h.isLive hold)
  · rcases update_eq_some hj with ⟨hji, hk'⟩ | ⟨-, hold⟩
    · rcases update_eq_some hj' with ⟨hji', -⟩ | ⟨-, hold'⟩
      · exact hji.trans hji'.symm
      · exact absurd (Option.some.inj hk' ▸ h.isLive hold') hk
    · rcases update_eq_some hj' with ⟨-, hk'⟩ | ⟨-, hold'⟩
      · exact absurd (Option.some.inj hk' ▸ h.isLive hold) hk
      · exact h.unique hold hold'
  · rcases hk' with hk' | rfl
    · obtain ⟨j, hj⟩ := h.owner hf hk'
      refine ⟨j, ?_⟩
      rw [update_of_ne fun hji => ?_, hj]
      rw [hji, hi hf] at hj
      cases hj
    · exact ⟨i, update_self ..⟩

theorem Owned.drop (hi : own i = some k) :
    Owned full (update own i none) fun k' => live k' ∧ k' ≠ k := by
  have hcases : ∀ {j k'}, update own i none j = some k' → j ≠ i ∧ own j = some k' :=
    fun hj => (update_eq_some hj).resolve_left fun hn => nomatch hn.2
  refine ⟨⟨fun hj => ?_, fun hj hj' => h.unique (hcases hj).2 (hcases hj').2⟩, fun hf _ hk' => ?_⟩
  · obtain ⟨hji, hj⟩ := hcases hj
    refine ⟨h.isLive hj, ?_⟩
    rintro rfl
    exact hji (h.unique hj hi)
  · obtain ⟨j, hj⟩ := h.owner hf hk'.1
    refine ⟨j, ?_⟩
    rw [update_of_ne fun hji => ?_, hj]
    rw [hji, hi] at hj
    exact hk'.2 (Option.some.inj hj).symm

theorem Owned.pass (hi : own i = some k) (hj : own j = none) :
    Owned full (update (update own i none) j (some k)) live := by
  have hji : j ≠ i := by
    rintro rfl
    rw [hi] at hj
    cases hj
  refine ((h.drop hi).take (i := j) (fun _ => ?_) fun hk => hk.2 rfl).congr rfl fun k' => ?_
  · rw [update_of_ne hji, hj]
  · constructor
    · intro hk'
      by_cases he : k' = k
      · exact .inr he
      · exact .inl ⟨hk', he⟩
    · rintro (hk' | rfl)
      · exact hk'.1
      · exact h.isLive hi

theorem Owned.lose : Owned False (update own i none) live := by
  have hcases : ∀ {j k'}, update own i none j = some k' → own j = some k' := fun hj =>
    ((update_eq_some hj).resolve_left fun hn => nomatch hn.2).2
  exact Holds.owned ⟨fun hj => h.isLive (hcases hj), fun hj hj' => h.unique (hcases hj) (hcases hj')⟩

end

/-! ## What is live after one object has changed -/

section Live

variable {α β : Type*} [DecidableEq α] {f : α → β} {a : α} {b : β} {P : β → Prop}

theorem update_live_iff (hb : P b) (x : α) : P (update f a b x) ↔ P (f x) ∨ x = a := by
  by_cases hx : x = a
  · rw [hx, update_self]
    exact iff_of_true hb (.inr rfl)
  · rw [update_of_ne hx, or_iff_left hx]

theorem update_dead_iff (hb : ¬ P b) (x : α) : P (update f a b x) ↔ P (f x) ∧ x ≠ a := by
  by_cases hx : x = a
  · rw [hx, update_self]
    exact iff_of_false hb fun hn => hn.2 rfl
  · rw [update_of_ne hx, and_iff_left hx]

theorem update_same_iff (hb : P b ↔ P (f a)) (x : α) : P (update f a b x) ↔ P (f x) := by
  by_cases hx : x = a
  · rw [hx, update_self, hb]
  · rw [update_of_ne hx]

theorem update_same_or (hb : P b) (ha : P (f a)) (x : α) :
    update f a b x = f x ∨ (P (update f a b x) ∧ P (f x)) := by
  by_cases hx : x = a
  · rw [hx, update_self]
    exact .inr ⟨hb, ha⟩
  · exact .inl (update_of_ne hx ..)

end Live

end Ownership
