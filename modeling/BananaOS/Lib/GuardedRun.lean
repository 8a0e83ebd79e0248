import Mathlib

/-!
# Runs of a partial step function

A system is given by `step : σ → ε → Option σ`: event `e` is possible in state `s` when `step s e`
is defined, and it leads to that state.  `Run step ok s es s'` says that the events `es` lead from
`s` to `s'` and that each of them meets `ok` in the state before it.
-/

namespace GuardedRun

variable {σ ε : Type*}

/-- The events `es` lead from one state to another, each meeting `ok` where it happens. -/
inductive Run (step : σ → ε → Option σ) (ok : σ → ε → Prop) : σ → List ε → σ → Prop
  | nil (s : σ) : Run step ok s [] s
  | cons {s m s' : σ} {e : ε} {es : List ε} (hok : ok s e) (hstep : step s e = some m)
      (hrun : Run step ok m es s') : Run step ok s (e :: es) s'

variable {step : σ → ε → Option σ} {ok : σ → ε → Prop}

variable {s s' : σ} {es : List ε}

theorem Run.invariant {I : σ → Prop}
    (hkeep : ∀ s e s', I s → ok s e → step s e = some s' → I s')
    (hrun : Run step ok s es s') (hs : I s) : I s' := by
  induction hrun with
  | nil s => exact hs
  | cons hok hstep _ ih => exact ih (hkeep _ _ _ hs hok hstep)

theorem Run.imp_of_invariant {ok' : σ → ε → Prop} {I : σ → Prop}
    (hkeep : ∀ s e s', I s → step s e = some s' → I s') (himp : ∀ s e, I s → ok s e → ok' s e)
    (hrun : Run step ok s es s') (hs : I s) : Run step ok' s es s' := by
  induction hrun with
  | nil s => exact .nil s
  | cons hok hstep _ ih => exact .cons (himp _ _ hs hok) hstep (ih (hkeep _ _ _ hs hstep))

theorem Run.mono {ok' : σ → ε → Prop} (himp : ∀ s e, ok s e → ok' s e)
    (hrun : Run step ok s es s') : Run step ok' s es s' :=
  hrun.imp_of_invariant (I := fun _ => True) (fun _ _ _ _ _ => trivial) (fun s e _ => himp s e)
    trivial

theorem Run.safe_iff {I P : σ → Prop} (hsafe : ∀ s, I s → P s)
    (hkeep : ∀ s e s', I s → ok s e → step s e = some s' → I s')
    (hlose : ∀ s e s', I s → ¬ ok s e → step s e = some s' → ¬ P s')
    (hrun : Run step (fun _ _ => True) s es s') (hs : I s) :
    Run step (fun s e => ∀ m, step s e = some m → P m) s es s' ↔ Run step ok s es s' := by
  induction hrun with
  | nil s => exact ⟨fun _ => .nil s, fun _ => .nil s⟩
  | cons _ hstep _ ih =>
    constructor
    · rintro (_ | ⟨hP, hstep', hrest⟩)
      cases Option.some.inj (hstep.symm.trans hstep')
      have hok := not_not.mp fun hok => hlose _ _ _ hs hok hstep (hP _ hstep)
      exact .cons hok hstep ((ih (hkeep _ _ _ hs hok hstep)).mp hrest)
    · rintro (_ | ⟨hok, hstep', hrest⟩)
      cases Option.some.inj (hstep.symm.trans hstep')
      have hI := hkeep _ _ _ hs hok hstep
      refine .cons (fun m hm => ?_) hstep ((ih hI).mpr hrest)
      rw [← Option.some.inj (hstep.symm.trans hm)]
      exact hsafe _ hI

def exec (step : σ → ε → Option σ) : σ → List ε → Option σ
  | s, [] => some s
  | s, e :: es => (step s e).bind fun m => exec step m es

def execIf (step : σ → ε → Option σ) (ok : σ → ε → Prop) [∀ s e, Decidable (ok s e)] :
    σ → List ε → Option σ
  | s, [] => some s
  | s, e :: es => if ok s e then (step s e).bind fun m => execIf step ok m es else none

theorem run_of_execIf [∀ s e, Decidable (ok s e)]
    (h : execIf step ok s es = some s') : Run step ok s es s' := by
  induction es generalizing s with
  | nil => exact Option.some.inj h ▸ .nil s
  | cons e es ih =>
    rw [execIf] at h
    split_ifs at h with hok
    obtain ⟨m, hm, hrest⟩ := Option.bind_eq_some_iff.mp h
    exact .cons hok hm (ih hrest)

theorem exists_run [∀ s e, Decidable (ok s e)] {P : σ → Prop} [DecidablePred P]
    (h : (execIf step ok s es).any (fun s' => decide (P s')) = true) :
    ∃ s', Run step ok s es s' ∧ P s' := by
  rcases he : execIf step ok s es with _ | s'
  · rw [he] at h
    cases h
  · rw [he] at h
    exact ⟨s', run_of_execIf he, of_decide_eq_true h⟩

end GuardedRun
