import Mathlib

/-!
# Computations that change a state and can fail

A C function that returns an error code has usually done part of its work by then, and nothing takes
it back.  So a failing computation still has a final state: `FailState σ α` is `σ → Option α × σ`,
and a sequence stops at the first failure with the state reached there.
-/

def FailState (σ α : Type) := σ → Option α × σ

namespace FailState

variable {σ α β : Type}

instance : Monad (FailState σ) where
  pure a := fun s => (some a, s)
  bind x f := fun s =>
    match x s with
    | (some a, s') => f a s'
    | (none, s') => (none, s')

def fail : FailState σ α := fun s => (none, s)

def gets (f : σ → α) : FailState σ α := fun s => (some (f s), s)

def modify (f : σ → σ) : FailState σ Unit := fun s => (some (), f s)

def attempt (x : FailState σ α) : FailState σ (Option α) := fun s =>
  match x s with
  | (r, s') => (some r, s')

theorem pure_run (a : α) (s : σ) : (pure a : FailState σ α) s = (some a, s) := rfl

theorem gets_run (f : σ → α) (s : σ) : gets f s = (some (f s), s) := rfl

theorem modify_run (f : σ → σ) (s : σ) : modify f s = (some (), f s) := rfl

theorem attempt_run (x : FailState σ α) (s : σ) : attempt x s = (some (x s).1, (x s).2) := rfl

theorem bind_run (x : FailState σ α) (f : α → FailState σ β) (s : σ) :
    (x >>= f) s = match x s with
      | (some a, s') => f a s'
      | (none, s') => (none, s') := rfl

theorem id_map_eq (x : FailState σ α) : id <$> x = x := by
  funext s
  have hrun : (id <$> x) s = (x >>= pure) s := rfl
  rw [hrun, bind_run]
  rcases x s with ⟨_ | a, s'⟩ <;> rfl

theorem bind_bind_eq {γ : Type} (x : FailState σ α) (f : α → FailState σ β)
    (g : β → FailState σ γ) : (x >>= f) >>= g = x >>= fun a => f a >>= g := by
  funext s
  simp only [bind_run]
  rcases x s with ⟨_ | a, s'⟩ <;> rfl

theorem pure_bind_eq (a : α) (f : α → FailState σ β) : pure a >>= f = f a := rfl

instance : LawfulMonad (FailState σ) := LawfulMonad.mk' _ id_map_eq pure_bind_eq bind_bind_eq

theorem bind_of_some {x : FailState σ α} {f : α → FailState σ β} {s s' : σ} {a : α}
    (h : x s = (some a, s')) : (x >>= f) s = f a s' := by
  rw [bind_run, h]

theorem bind_of_none {x : FailState σ α} {f : α → FailState σ β} {s s' : σ}
    (h : x s = (none, s')) : (x >>= f) s = (none, s') := by
  rw [bind_run, h]

theorem of_bind_eq_some {x : FailState σ α} {f : α → FailState σ β} {s s' : σ} {b : β}
    (h : (x >>= f) s = (some b, s')) : ∃ a s₁, x s = (some a, s₁) ∧ f a s₁ = (some b, s') := by
  rw [bind_run] at h
  rcases hx : x s with ⟨_ | a, s₁⟩
  · rw [hx] at h
    cases h
  · rw [hx] at h
    exact ⟨a, s₁, rfl, h⟩

theorem gets_bind_run (g : σ → α) (f : α → FailState σ β) (s : σ) :
    (gets g >>= f) s = f (g s) s := rfl

theorem modify_bind_run (g : σ → σ) (f : Unit → FailState σ β) (s : σ) :
    (modify g >>= f) s = f () (g s) := rfl

theorem attempt_bind_run (x : FailState σ α) (f : Option α → FailState σ β) (s : σ) :
    (attempt x >>= f) s = f (x s).1 (x s).2 := rfl

/-! ## Parts of the state that do not matter -/

def Commutes (f : σ → σ) (x : FailState σ α) : Prop := ∀ s, x (f s) = ((x s).1, f (x s).2)

section Commutes

variable {f : σ → σ} {x : FailState σ α} {y : α → FailState σ β}

theorem commutes_pure (a : α) : Commutes f (pure a : FailState σ α) := fun _ => rfl

theorem commutes_gets {g : σ → α} (h : ∀ s, g (f s) = g s) : Commutes f (gets g) := fun s => by
  rw [gets_run, gets_run, h]

theorem commutes_modify {g : σ → σ} (h : ∀ s, g (f s) = f (g s)) : Commutes f (modify g) :=
  fun s => by rw [modify_run, modify_run, h]

theorem Commutes.attempt (h : Commutes f x) : Commutes f (attempt x) := fun s => by
  rw [attempt_run, attempt_run, h]

theorem Commutes.bind (h : Commutes f x) (h' : ∀ a, Commutes f (y a)) : Commutes f (x >>= y) := by
  intro s
  rw [bind_run, bind_run, h s]
  rcases x s with ⟨_ | a, s'⟩
  · rfl
  · exact h' a s'

end Commutes

end FailState
