import BananaOS.Proc.Wait4

/-!
# What the operations do to the tasks

One description per operation of `sched.c`, for the properties that are not about the queues.  Most
of what happens to a task it does not do itself is that it is woken up: `Woken` is the edit that
`sched_wake` makes, and `Quiet` says that nothing else has happened to anybody.  Ends are described by
`Task.killed` and `Task.exited`, and a signal by one of three cases: it terminates (`Lethal`), it is
left pending (`Caught`), or nothing happens.
-/

namespace BananaOS.Proc

open Function RingQueue
open Sched (TaskState WaitKind Word)

/-! ## Wake-ups -/

def Task.woken (x : Task) : Task :=
  { x with
    state := .ready
    priority := x.savedPriority
    ticksLeft := timeSliceForLevel x.savedPriority }

inductive Woken (x : Task) : Task → Prop
  | same : Woken x x
  | woken (h : x.state = .blocked) : Woken x x.woken

variable {x y : Task}

theorem Woken.sigPending_eq (h : Woken x y) : y.sigPending = x.sigPending := by
  cases h <;> rfl

theorem Woken.trans {z : Task} (h : Woken x y) (h' : Woken y z) : Woken x z := by
  cases h with
  | same => exact h'
  | woken hx =>
    cases h' with
    | same => exact .woken hx
    | woken hy => cases hy

theorem Woken.state (h : Woken x y) :
    y.state = x.state ∨ (x.state = .blocked ∧ y.state = .ready) := by
  cases h with
  | same => exact .inl rfl
  | woken hx => exact .inr ⟨hx, rfl⟩

theorem Woken.eq_of_ne (h : Woken x y) (hx : x.state ≠ .blocked) : y = x := by
  cases h with
  | same => rfl
  | woken hb => exact absurd hb hx

theorem Woken.eq_of_blocked (h : Woken x y) (hy : y.state = .blocked) : y = x := by
  cases h with
  | same => rfl
  | woken _ => cases hy

theorem Woken.eq_but (h : Woken x y) :
    y = { x with state := y.state, priority := y.priority, ticksLeft := y.ticksLeft } := by
  cases h with
  | same => rfl
  | woken _ => rfl

structure Quiet (s s' : Sys) : Prop where
  tasks : ∀ u, Woken (s.tasks u) (s'.tasks u)
  count : s'.taskCount = s.taskCount
  current : s'.currentTask = s.currentTask
  sig : s'.sig = s.sig
  exitRequest : s'.exitRequest = s.exitRequest

section Quiet

variable {s s' s'' : Sys}

theorem Quiet.refl (s : Sys) : Quiet s s := ⟨fun _ => .same, rfl, rfl, rfl, rfl⟩

theorem Quiet.trans (h : Quiet s s') (h' : Quiet s' s'') : Quiet s s'' :=
  ⟨fun u => (h.tasks u).trans (h'.tasks u), h'.count.trans h.count, h'.current.trans h.current,
    h'.sig.trans h.sig, h'.exitRequest.trans h.exitRequest⟩

theorem quiet_foldl {α : Type} {f : Sys → α → Sys} (hf : ∀ s a, Quiet s (f s a)) (l : List α) :
    ∀ s, Quiet s (l.foldl f s) := by
  induction l with
  | nil => exact Quiet.refl
  | cons a l ih => exact fun s => (hf s a).trans (ih (f s a))

theorem quiet_schedWake (s : Sys) (t : ℕ) : Quiet s (schedWake s t) := by
  unfold schedWake
  split_ifs with _ hb
  · exact .refl s
  · refine ⟨fun u => ?_, rfl, rfl, rfl, rfl⟩
    by_cases hu : u = t
    · rw [hu, tasks_mlfqEnqueue, tasks_modifyTask_self]
      exact .woken hb
    · rw [tasks_mlfqEnqueue, tasks_modifyTask_of_ne s hu]
      exact .same
  · exact .refl s

theorem fds_schedWake (s : Sys) (t : ℕ) : (schedWake s t).fds = s.fds := by
  unfold schedWake
  split_ifs <;> rfl

theorem quiet_wakeRound (p : Task → Bool) (s : Sys) (i : ℕ) : Quiet s (wakeRound p s i) := by
  unfold wakeRound
  split_ifs
  · exact quiet_schedWake s i
  · exact .refl s

theorem quiet_wakeWhere (p : Task → Bool) (s : Sys) : Quiet s (wakeWhere p s) :=
  quiet_foldl (quiet_wakeRound p) _ s

theorem quiet_deadlineRound (now : ℕ) (s : Sys) (i : ℕ) : Quiet s (deadlineRound now s i) := by
  have hwake := quiet_schedWake s i
  have hsame := Quiet.refl s
  unfold deadlineRound
  dsimp only
  split_ifs <;> assumption

theorem fds_wakeWhere (p : Task → Bool) (s : Sys) : (wakeWhere p s).fds = s.fds := by
  unfold wakeWhere
  generalize List.range s.taskCount = l
  induction l generalizing s with
  | nil => rfl
  | cons i l ih =>
    rw [List.foldl_cons, ih]
    unfold wakeRound
    split_ifs
    · exact fds_schedWake s i
    · rfl

theorem wakeRound_wakes {p : Task → Bool} {i : ℕ} (hq : Quiet s s')
    (hid : (s.tasks i).id < s.taskCount) (hp : p (s.tasks i) = true) :
    ((wakeRound p s' i).tasks i).state ≠ .blocked := by
  by_cases hb : (s'.tasks i).state = .blocked
  · have heq : s'.tasks i = s.tasks i := (hq.tasks i).eq_of_blocked hb
    unfold wakeRound schedWake
    rw [if_pos ⟨hb, heq ▸ hp⟩, hq.count, heq, if_neg (Nat.not_le.mpr hid), if_pos (heq ▸ hb),
      tasks_mlfqEnqueue, tasks_modifyTask_self]
    exact nofun
  · rw [((quiet_wakeRound p s' i).tasks i).eq_of_ne hb]
    exact hb

theorem wakeWhere_wakes {p : Task → Bool} {i : ℕ} (hi : i < s.taskCount)
    (hid : (s.tasks i).id < s.taskCount) (hp : p (s.tasks i) = true) :
    ((wakeWhere p s).tasks i).state ≠ .blocked := by
  have hround : ∀ (l : List ℕ) (s' : Sys), Quiet s s' → i ∈ l →
      ((l.foldl (wakeRound p) s').tasks i).state ≠ .blocked := by
    intro l
    induction l with
    | nil => exact fun _ _ h => absurd h List.not_mem_nil
    | cons j l ih =>
      intro s' hq hmem
      rw [List.foldl_cons]
      rcases List.mem_cons.mp hmem with rfl | hmem
      · have hnow := wakeRound_wakes hq hid hp
        rwa [((quiet_foldl (quiet_wakeRound p) l _).tasks i).eq_of_ne hnow]
      · exact ih _ (hq.trans (quiet_wakeRound p s' j)) hmem
  exact hround _ s (.refl s) (List.mem_range.mpr hi)

end Quiet

/-! ## Closing files -/

section Close

variable (wk : ℕ → WaitKind → Word → Bool) (pid : ℤ)

/-- One round of `vfs_fd_close_all`. -/
def closeRound (s : Sys) (i : ℕ) : Sys :=
  if s.fds i = some pid then
    { wakeWhere (fun t => wk i t.waitKind t.waitArg) s with fds := update s.fds i none }
  else s

theorem vfsFdCloseAll_eq (s : Sys) : vfsFdCloseAll wk pid s =
    if pid ≤ 0 then s else (List.range maxFds).foldl (closeRound wk pid) s := rfl

theorem quiet_closeRound (s : Sys) (i : ℕ) : Quiet s (closeRound wk pid s i) := by
  unfold closeRound
  split_ifs
  · obtain ⟨htasks, hcount, hcur, hsig, hexit⟩ :=
      quiet_wakeWhere (fun t => wk i t.waitKind t.waitArg) s
    exact ⟨htasks, hcount, hcur, hsig, hexit⟩
  · exact .refl s

theorem quiet_vfsFdCloseAll (s : Sys) : Quiet s (vfsFdCloseAll wk pid s) := by
  rw [vfsFdCloseAll_eq]
  split_ifs
  · exact .refl s
  · exact quiet_foldl (quiet_closeRound wk pid) _ s

theorem fds_closeRound (s : Sys) (i j : ℕ) :
    (closeRound wk pid s i).fds j = if j = i ∧ s.fds j = some pid then none else s.fds j := by
  unfold closeRound
  by_cases ho : s.fds i = some pid
  · rw [if_pos ho]
    by_cases hj : j = i
    · subst hj
      rw [if_pos ⟨rfl, ho⟩]
      exact update_self ..
    · rw [if_neg fun h => hj h.1]
      exact update_of_ne hj ..
  · rw [if_neg ho, if_neg]
    rintro ⟨rfl, h⟩
    exact ho h

theorem fds_vfsFdCloseAll (s : Sys) (j : ℕ) : (vfsFdCloseAll wk pid s).fds j =
    if 0 < pid ∧ j < maxFds ∧ s.fds j = some pid then none else s.fds j := by
  have hloop : ∀ (l : List ℕ) (s : Sys), (l.foldl (closeRound wk pid) s).fds j =
      if j ∈ l ∧ s.fds j = some pid then none else s.fds j := by
    intro l
    induction l with
    | nil => exact fun s => (if_neg fun h => List.not_mem_nil h.1).symm
    | cons i l ih =>
      intro s
      rw [List.foldl_cons, ih, fds_closeRound]
      by_cases ho : s.fds j = some pid <;> by_cases hj : j = i <;> by_cases hl : j ∈ l <;>
        simp [ho, hj, hl]
  rw [vfsFdCloseAll_eq]
  by_cases hp : pid ≤ 0
  · rw [if_pos hp, if_neg fun h => absurd h.1 (Int.not_lt.mpr hp)]
  · rw [if_neg hp, hloop]
    simp only [List.mem_range, Int.not_le.mp hp, true_and]

end Close

/-! ## Ends -/

def Task.killed (x : Task) : Task :=
  { x with itimerDeadline := 0, itimerInterval := 0, state := .zombie }

/-- The edit of `sched_mark_exited`. -/
def Task.exited (x : Task) (code : ℤ) : Task := { x.killed with exitCode := code }

/-- What `sched_kill` does to a task that is not a zombie. -/
structure Killed (s s' : Sys) (t : ℕ) : Prop where
  self : s'.tasks t = (s.tasks t).killed
  other : ∀ u, u ≠ t → s'.tasks u = s.tasks u
  count : s'.taskCount = s.taskCount
  current : s'.currentTask = if s.currentTask = some t then none else s.currentTask
  fds : s'.fds = s.fds
  exitRequest : s'.exitRequest = s.exitRequest

theorem schedKill_spec {s : Sys} {t : ℕ} (ht : t < s.taskCount)
    (hz : (s.tasks t).state ≠ .zombie) : Killed s (schedKill s t) t := by
  unfold schedKill
  rw [if_neg (Nat.not_le.mpr ht), if_neg hz]
  by_cases hc : s.currentTask = some t
  · simp only [if_pos hc]
    refine ⟨?_, fun u hu => ?_, rfl, (if_pos hc).symm, rfl, rfl⟩
    · simp [Task.killed]
    · simp [tasks_setState_of_ne, tasks_modifyTask_of_ne, hu]
  · simp only [if_neg hc]
    refine ⟨?_, fun u hu => ?_, rfl, (if_neg hc).symm, rfl, rfl⟩
    · simp [Task.killed]
    · simp [tasks_setState_of_ne, tasks_modifyTask_of_ne, hu]

theorem schedKill_of_dead {s : Sys} {t : ℕ}
    (h : ¬ (t < s.taskCount ∧ (s.tasks t).state ≠ .zombie)) : schedKill s t = s := by
  unfold schedKill
  by_cases ht : s.taskCount ≤ t
  · rw [if_pos ht]
  · rw [if_neg ht, if_pos (not_not.mp fun hz => h ⟨Nat.not_le.mp ht, hz⟩)]

structure Exited (s s' : Sys) (t : ℕ) (code : ℤ) : Prop where
  self : s'.tasks t = (s.tasks t).exited code
  other : ∀ u, u ≠ t → Woken (s.tasks u) (s'.tasks u)
  count : s'.taskCount = s.taskCount
  current : s'.currentTask = s.currentTask
  fds : ∀ j, s'.fds j =
    if 0 < (s.tasks t).pid ∧ j < maxFds ∧ s.fds j = some ((s.tasks t).pid : ℤ) then none
    else s.fds j
  exitRequest : s'.exitRequest = s.exitRequest
  sig : s'.sig = .zero

theorem schedMarkExited_spec (wk : ℕ → WaitKind → Word → Bool) (s : Sys) (t : ℕ) (code : ℤ) :
    Exited s (schedMarkExited wk s t code) t code := by
  unfold schedMarkExited
  dsimp only
  generalize hs₁ : ((((s.modifyTask t fun task => { task with
    exitCode := code, itimerDeadline := 0, itimerInterval := 0 }).signalGlobalsReset).mlfqRemoveAll
    t).setState t .zombie) = s₁
  have hself : s₁.tasks t = (s.tasks t).exited code := by
    subst hs₁
    simp [Task.exited, Task.killed]
  have hother : ∀ u, u ≠ t → s₁.tasks u = s.tasks u := by
    subst hs₁
    intro u hu
    simp [tasks_setState_of_ne, tasks_modifyTask_of_ne, hu]
  have hq := quiet_vfsFdCloseAll wk (s.tasks t).pid s₁
  refine ⟨?_, fun u hu => ?_, ?_, ?_, fun j => ?_, ?_, ?_⟩
  · rw [(hq.tasks t).eq_of_ne (by rw [hself]; exact nofun), hself]
  · rw [← hother u hu]
    exact hq.tasks u
  · rw [hq.count, ← hs₁]
    rfl
  · rw [hq.current, ← hs₁]
    rfl
  · rw [fds_vfsFdCloseAll, show s₁.fds = s.fds by rw [← hs₁]; rfl]
    simp only [Int.natCast_pos]
  · rw [hq.exitRequest, ← hs₁]
    rfl
  · rw [hq.sig, ← hs₁]
    rfl

/-! ## Signals -/

/-- The signal is one that `kill_one_task` looks at. -/
def IsSignal (sig : ℕ) : Prop := 0 < sig ∧ sig < 64

def Caught (x : Task) (sig : ℕ) : Prop :=
  sig ≠ sigKill ∧ sig ≠ sigStop ∧ sigIgnVal < x.sigHandler sig ∧ x.sigBlocked &&& sigBit sig = 0

def IgnoredByDefault (sig : ℕ) : Prop :=
  sig = sigChld ∨ sig = 18 ∨ sig = 19 ∨ sig = 20 ∨ sig = 21 ∨ sig = 22

/-- **The signal terminates the task.**  Between the two cases of `Caught` lies the slip: a task that
has a handler but blocks the signal is treated as if it had none. -/
def Lethal (x : Task) (sig : ℕ) : Prop :=
  sig = sigKill ∨
    (sig ≠ sigStop ∧ ¬ Caught x sig ∧ x.sigHandler sig ≠ sigIgnVal ∧ ¬ IgnoredByDefault sig)

instance (sig : ℕ) : Decidable (IsSignal sig) := inferInstanceAs (Decidable (_ ∧ _))

instance (x : Task) (sig : ℕ) : Decidable (Caught x sig) := inferInstanceAs (Decidable (_ ∧ _))

instance (sig : ℕ) : Decidable (IgnoredByDefault sig) := inferInstanceAs (Decidable (_ ∨ _))

instance (x : Task) (sig : ℕ) : Decidable (Lethal x sig) := inferInstanceAs (Decidable (_ ∨ _))

def Task.pend (x : Task) (sig : ℕ) : Task := { x with sigPending := x.sigPending ||| sigBit sig }

section Signals

variable {s : Sys} {t sig : ℕ} {wk : ℕ → WaitKind → Word → Bool}

theorem killOneTask_of_lethal (hs : IsSignal sig) (h : Lethal (s.tasks t) sig) :
    killOneTask wk s t sig = terminateBy wk s t sig := by
  unfold killOneTask
  rw [if_neg (by have := hs.1; have := hs.2; omega)]
  by_cases hk : sig = sigKill
  · rw [if_pos hk]
  · rw [if_neg hk]
    obtain ⟨hstop, hcaught, hign, hdef⟩ := h.resolve_left hk
    have hnc : ¬ (sigIgnVal < (s.tasks t).sigHandler sig ∧
        (s.tasks t).sigBlocked &&& sigBit sig = 0) := fun hc => hcaught ⟨hk, hstop, hc⟩
    have hchld : sig ≠ sigChld := fun h => hdef (.inl h)
    rw [if_neg hstop]
    dsimp only
    rw [if_neg hnc, if_neg hign, if_neg hchld, if_neg fun h => hdef (.inr h)]

theorem killOneTask_of_caught (hs : IsSignal sig) (h : Caught (s.tasks t) sig) :
    killOneTask wk s t sig =
      if (s.tasks t).state = .blocked ∧ (s.tasks t).isUser = false then
        schedWake (s.modifyTask t (·.pend sig)) t
      else s.modifyTask t (·.pend sig) := by
  unfold killOneTask
  rw [if_neg (by have := hs.1; have := hs.2; omega), if_neg h.1, if_neg h.2.1]
  dsimp only
  rw [if_pos h.2.2]
  rfl

theorem killOneTask_of_ignored (h : ¬ (IsSignal sig ∧ (Lethal (s.tasks t) sig ∨
    Caught (s.tasks t) sig))) : killOneTask wk s t sig = s := by
  unfold killOneTask
  by_cases hs : IsSignal sig
  · have hl : ¬ Lethal (s.tasks t) sig := fun hl => h ⟨hs, .inl hl⟩
    have hc : ¬ Caught (s.tasks t) sig := fun hc => h ⟨hs, .inr hc⟩
    have hk : sig ≠ sigKill := fun hk => hl (.inl hk)
    rw [if_neg (by have := hs.1; have := hs.2; omega), if_neg hk]
    by_cases hstop : sig = sigStop
    · rw [if_pos hstop]
    · rw [if_neg hstop]
      dsimp only
      rw [if_neg fun h => hc ⟨hk, hstop, h⟩]
      by_cases hign : (s.tasks t).sigHandler sig = sigIgnVal
      · rw [if_pos hign]
      · rw [if_neg hign]
        by_cases hdef : IgnoredByDefault sig
        · rcases hdef with hdef | hdef
          · rw [if_pos hdef]
          · rw [if_pos hdef, ite_self]
        · exact absurd (.inr ⟨hstop, hc, hign, hdef⟩) hl
  · unfold IsSignal at hs
    rw [if_pos (by omega)]

inductive Signalled (wk : ℕ → WaitKind → Word → Bool) (s : Sys) (t sig : ℕ) : Sys → Prop
  | exits (hl : IsSignal sig ∧ Lethal (s.tasks t) sig) (hc : s.currentTask = some t) :
    Signalled wk s t sig { schedMarkExited wk s t sig with exitRequest := true }
  | killed (hl : IsSignal sig ∧ Lethal (s.tasks t) sig) (hc : s.currentTask ≠ some t) :
    Signalled wk s t sig (schedKill s (s.tasks t).id)
  | woken (hl : ¬ (IsSignal sig ∧ Lethal (s.tasks t) sig)) (hc : Caught (s.tasks t) sig)
    (hb : (s.tasks t).state = .blocked) :
    Signalled wk s t sig (schedWake (s.modifyTask t (·.pend sig)) t)
  | pends (hl : ¬ (IsSignal sig ∧ Lethal (s.tasks t) sig)) (hc : Caught (s.tasks t) sig) :
    Signalled wk s t sig (s.modifyTask t (·.pend sig))
  | ignored (hl : ¬ (IsSignal sig ∧ Lethal (s.tasks t) sig)) : Signalled wk s t sig s

theorem killOneTask_cases (wk : ℕ → WaitKind → Word → Bool) (s : Sys) (t sig : ℕ) :
    Signalled wk s t sig (killOneTask wk s t sig) := by
  by_cases hl : IsSignal sig ∧ Lethal (s.tasks t) sig
  · rw [killOneTask_of_lethal hl.1 hl.2]
    unfold terminateBy
    split_ifs with hc
    · exact .exits hl hc
    · exact .killed hl hc
  · by_cases hc : IsSignal sig ∧ Caught (s.tasks t) sig
    · rw [killOneTask_of_caught hc.1 hc.2]
      split_ifs with hb
      · exact .woken hl hc.2 hb.1
      · exact .pends hl hc.2
    · rw [killOneTask_of_ignored fun h => h.2.elim (fun h' => hl ⟨h.1, h'⟩) fun h' => hc ⟨h.1, h'⟩]
      exact .ignored hl

theorem killOneTask_other {u : ℕ} (hid : (s.tasks u).id = u) (hu : t ≠ u) :
    Woken (s.tasks t) ((killOneTask wk s u sig).tasks t) := by
  have h := killOneTask_cases wk s u sig
  have hpend : (s.modifyTask u (·.pend sig)).tasks t = s.tasks t := tasks_modifyTask_of_ne s hu _
  generalize killOneTask wk s u sig = s' at h ⊢
  cases h with
  | exits => exact (schedMarkExited_spec wk s u sig).other t hu
  | killed =>
    rw [hid]
    by_cases hk : u < s.taskCount ∧ (s.tasks u).state ≠ .zombie
    · rw [(schedKill_spec hk.1 hk.2).other t hu]
      exact .same
    · rw [schedKill_of_dead hk]
      exact .same
  | woken => exact hpend ▸ (quiet_schedWake _ u).tasks t
  | pends => exact hpend ▸ .same
  | ignored => exact .same

end Signals

/-! ## Loops over the table -/

theorem foldl_visit {σ : Type} {f : σ → ℕ → σ} {P Q : σ → Prop} {t : ℕ}
    (hvisit : ∀ s, P s → Q (f s t)) {l : List ℕ} (hnd : l.Nodup) (ht : t ∈ l)
    (hbefore : ∀ s, ∀ j ∈ l, j ≠ t → P s → P (f s j))
    (hafter : ∀ s, ∀ j ∈ l, j ≠ t → Q s → Q (f s j)) : ∀ s, P s → Q (l.foldl f s) := by
  have hrest : ∀ (l : List ℕ), t ∉ l → (∀ s, ∀ j ∈ l, j ≠ t → Q s → Q (f s j)) →
      ∀ s, Q s → Q (l.foldl f s) := by
    intro l
    induction l with
    | nil => exact fun _ _ s h => h
    | cons j l ih =>
      intro hl hf s h
      have hj : t ≠ j := List.ne_of_not_mem_cons hl
      exact ih (List.not_mem_of_not_mem_cons hl) (fun s i hi => hf s i (List.mem_cons_of_mem j hi)) _
        (hf s j List.mem_cons_self (Ne.symm hj) h)
  induction l with
  | nil => exact absurd ht List.not_mem_nil
  | cons j l ih =>
    intro s h
    obtain ⟨hj, hnd⟩ := List.nodup_cons.mp hnd
    by_cases hjt : j = t
    · subst hjt
      exact hrest l hj (fun s i hi => hafter s i (List.mem_cons_of_mem j hi)) _ (hvisit s h)
    · refine ih hnd ((List.mem_cons.mp ht).resolve_left (Ne.symm hjt))
        (fun s i hi => hbefore s i (List.mem_cons_of_mem j hi))
        (fun s i hi => hafter s i (List.mem_cons_of_mem j hi)) _ ?_
      exact hbefore s j List.mem_cons_self hjt h

/-! ## What identifies a task -/

def Task.ident (x : Task) : ℕ × ℕ × ℕ × Bool × Bool × Bool :=
  (x.id, x.pid, x.ppid, x.isUser, x.named, x.hasFunc)

/-- Nobody has been started, and nobody has been reaped or brought back. -/
structure Steady (s s' : Sys) : Prop where
  ident : ∀ u, (s'.tasks u).ident = (s.tasks u).ident
  count : s'.taskCount = s.taskCount
  reaped : ∀ u, (s'.tasks u).state = .reaped ↔ (s.tasks u).state = .reaped

def Ids (s : Sys) : Prop := ∀ i < s.taskCount, (s.tasks i).id = i

section Steady

variable {s s' s'' : Sys} {t : ℕ}

theorem Steady.refl (s : Sys) : Steady s s := ⟨fun _ => rfl, rfl, fun _ => Iff.rfl⟩

theorem Steady.trans (h : Steady s s') (h' : Steady s' s'') : Steady s s'' :=
  ⟨fun u => (h'.ident u).trans (h.ident u), h'.count.trans h.count,
    fun u => (h'.reaped u).trans (h.reaped u)⟩

theorem Steady.ids (h : Steady s s') (hids : Ids s) : Ids s' := by
  intro i hi
  rw [h.count] at hi
  exact (congrArg Prod.fst (h.ident i)).trans (hids i hi)

theorem Steady.congr (h : Steady s s') (htasks : s''.tasks = s'.tasks)
    (hcount : s''.taskCount = s'.taskCount) : Steady s s'' :=
  ⟨fun u => by rw [htasks]; exact h.ident u, hcount.trans h.count,
    fun u => by rw [htasks]; exact h.reaped u⟩

theorem Woken.reaped_iff (h : Woken x y) : y.state = .reaped ↔ x.state = .reaped := by
  rcases h.state with he | ⟨hb, hr⟩
  · rw [he]
  · rw [hb, hr]
    exact ⟨nofun, nofun⟩

theorem Quiet.steady (h : Quiet s s') : Steady s s' := by
  refine ⟨fun u => ?_, h.count, fun u => (h.tasks u).reaped_iff⟩
  rw [(h.tasks u).eq_but]
  rfl

theorem steady_modifyTask (s : Sys) (t : ℕ) {f : Task → Task}
    (hid : (f (s.tasks t)).ident = (s.tasks t).ident)
    (hr : (f (s.tasks t)).state = .reaped ↔ (s.tasks t).state = .reaped) :
    Steady s (s.modifyTask t f) := by
  refine ⟨fun u => ?_, rfl, fun u => ?_⟩
  · by_cases hut : u = t
    · rw [hut, tasks_modifyTask_self, hid]
    · rw [tasks_modifyTask_of_ne s hut]
  · by_cases hut : u = t
    · rw [hut, tasks_modifyTask_self]
      exact hr
    · rw [tasks_modifyTask_of_ne s hut]

theorem steady_setState {x : TaskState} (hr : (s.tasks t).state ≠ .reaped) (hx : x ≠ .reaped) :
    Steady s (s.setState t x) :=
  steady_modifyTask s t rfl (iff_of_false hx hr)

theorem steady_schedKill (hr : (s.tasks t).state ≠ .reaped) : Steady s (schedKill s t) := by
  by_cases hk : t < s.taskCount ∧ (s.tasks t).state ≠ .zombie
  · have hspec := schedKill_spec hk.1 hk.2
    refine ⟨fun u => ?_, hspec.count, fun u => ?_⟩
    · by_cases hut : u = t
      · rw [hut, hspec.self]
        rfl
      · rw [hspec.other u hut]
    · by_cases hut : u = t
      · rw [hut, hspec.self]
        exact iff_of_false nofun hr
      · rw [hspec.other u hut]
  · rw [schedKill_of_dead hk]
    exact .refl s

variable (wk : ℕ → WaitKind → Word → Bool)

theorem steady_schedMarkExited (hr : (s.tasks t).state ≠ .reaped)
    (code : ℤ) : Steady s (schedMarkExited wk s t code) := by
  have hspec := schedMarkExited_spec wk s t code
  refine ⟨fun u => ?_, hspec.count, fun u => ?_⟩
  · by_cases hut : u = t
    · rw [hut, hspec.self]
      rfl
    · rw [(hspec.other u hut).eq_but]
      rfl
  · by_cases hut : u = t
    · rw [hut, hspec.self]
      exact iff_of_false nofun hr
    · exact (hspec.other u hut).reaped_iff

theorem steady_killOneTask (hid : (s.tasks t).id = t)
    (hr : (s.tasks t).state ≠ .reaped) (sig : ℕ) : Steady s (killOneTask wk s t sig) := by
  have h := killOneTask_cases wk s t sig
  have hpend := steady_modifyTask s t (f := (·.pend sig)) rfl Iff.rfl
  generalize killOneTask wk s t sig = s' at h ⊢
  cases h with
  | exits => exact (steady_schedMarkExited wk hr (sig : ℤ)).congr rfl rfl
  | killed =>
    rw [hid]
    exact steady_schedKill hr
  | woken => exact hpend.trans (quiet_schedWake _ t).steady
  | pends => exact hpend
  | ignored => exact .refl s

theorem steady_timerRound (now : ℕ) (hid : (s.tasks t).id = t)
    (hr : (s.tasks t).state ≠ .reaped) : Steady s (timerRound wk now s t) := by
  unfold timerRound
  split_ifs
  · have hedit := steady_modifyTask s t (f := Task.rearmed) rfl Iff.rfl
    have htask : (s.modifyTask t Task.rearmed).tasks t = (s.tasks t).rearmed :=
      tasks_modifyTask_self ..
    refine hedit.trans (steady_killOneTask wk ?_ ?_ 14)
    · rw [htask]
      exact hid
    · rw [htask]
      exact hr
  · exact .refl s

theorem steady_pollTimeout (now : ℕ) (hid : (s.tasks t).id = t) :
    Steady s (pollTimeout wk now s t) := by
  unfold pollTimeout
  split_ifs with hdead
  · exact steady_modifyTask s t rfl Iff.rfl
  · exact (steady_timerRound wk now hid fun h => hdead (.inr h)).trans
      (quiet_deadlineRound now _ t).steady

theorem steady_foldl {f : Sys → ℕ → Sys} (hf : ∀ s i, Ids s → i < s.taskCount → Steady s (f s i))
    (l : List ℕ) : ∀ s, Ids s → (∀ i ∈ l, i < s.taskCount) → Steady s (l.foldl f s) := by
  induction l with
  | nil => exact fun s _ _ => .refl s
  | cons i l ih =>
    intro s hids hl
    have h := hf s i hids (hl i List.mem_cons_self)
    refine h.trans (ih (f s i) (h.ids hids) fun j hj => ?_)
    rw [h.count]
    exact hl j (List.mem_cons_of_mem i hj)

theorem steady_schedPollTimeouts (now : ℕ) (hids : Ids s) :
    Steady s (schedPollTimeouts wk now s) :=
  steady_foldl (fun _ i h hi => steady_pollTimeout wk now (h i hi)) _ s hids
    fun _ hi => List.mem_range.mp hi

end Steady

/-! ## Picking, blocking and putting back -/

structure SameTable (s s' : Sys) : Prop where
  tasks : s'.tasks = s.tasks
  count : s'.taskCount = s.taskCount
  current : s'.currentTask = s.currentTask
  sig : s'.sig = s.sig
  exitRequest : s'.exitRequest = s.exitRequest
  fds : s'.fds = s.fds

structure Picked (s s' : Sys) (t : ℕ) : Prop where
  was_ready : (s.tasks t).state = .ready
  self : ∃ k, s'.tasks t = { s.tasks t with state := .running, ticksLeft := k }
  other : ∀ u, u ≠ t → s'.tasks u = s.tasks u
  count : s'.taskCount = s.taskCount
  current : s'.currentTask = some t
  sig : s'.sig = s.sig
  exitRequest : s'.exitRequest = s.exitRequest
  fds : s'.fds = s.fds

section Pick

variable {s s' s'' : Sys} {t : ℕ}

theorem SameTable.refl (s : Sys) : SameTable s s := ⟨rfl, rfl, rfl, rfl, rfl, rfl⟩

theorem SameTable.trans (h : SameTable s s') (h' : SameTable s' s'') : SameTable s s'' :=
  ⟨h'.tasks.trans h.tasks, h'.count.trans h.count, h'.current.trans h.current, h'.sig.trans h.sig,
    h'.exitRequest.trans h.exitRequest, h'.fds.trans h.fds⟩

theorem SameTable.picked (h : SameTable s s') (hp : Picked s' s'' t) : Picked s s'' t := by
  obtain ⟨hready, hself, hother, hcount, hcur, hsig, hexit, hfds⟩ := hp
  rw [h.tasks] at hready hself hother
  exact ⟨hready, hself, hother, hcount.trans h.count, hcur, hsig.trans h.sig,
    hexit.trans h.exitRequest, hfds.trans h.fds⟩

theorem picked_run (hr : (s.tasks t).state = .ready) : Picked s (s.run t) t :=
  ⟨hr, ⟨if (s.tasks t).ticksLeft ≤ 0 then timeSliceForLevel (s.tasks t).priority
    else (s.tasks t).ticksLeft, update_self ..⟩, fun _ hu => update_of_ne hu ..,
    rfl, rfl, rfl, rfl, rfl⟩

theorem nextScan_cases : ∀ (n l : ℕ) (s : Sys),
    (∃ t, (nextScan n l s).1 = some t ∧ Picked s (nextScan n l s).2 t) ∨
      ((nextScan n l s).1 = none ∧ SameTable s (nextScan n l s).2) := by
  intro n
  induction n with
  | zero => exact fun l s => .inr ⟨rfl, .refl s⟩
  | succ n ih =>
    intro l s
    rw [nextScan]
    rcases (s.mlfq l).dequeue with ⟨_ | t, q⟩
    · exact ih (l + 1) s
    · set s' : Sys := { s with mlfq := update s.mlfq l q }
      have hsame : SameTable s s' := ⟨rfl, rfl, rfl, rfl, rfl, rfl⟩
      dsimp only
      by_cases hr : (s'.tasks t).state = .ready
      · rw [if_pos hr]
        exact .inl ⟨t, rfl, hsame.picked (picked_run hr)⟩
      · rw [if_neg hr]
        rcases ih (l + 1) s' with ⟨t', hfst, hp⟩ | ⟨hfst, hst⟩
        · exact .inl ⟨t', hfst, hsame.picked hp⟩
        · exact .inr ⟨hfst, hsame.trans hst⟩

theorem schedNext_cases (s : Sys) :
    (∃ t, (schedNext s).1 = some (s.tasks t).id ∧ Picked s (schedNext s).2 t) ∨
      ((schedNext s).1 = none ∧ SameTable s (schedNext s).2) := by
  unfold schedNext
  rcases hscan : nextScan mlfqLevels 0 s with ⟨_ | t, s'⟩
  · have hsame : SameTable s s' := by
      rcases nextScan_cases mlfqLevels 0 s with ⟨t, hfst, -⟩ | ⟨-, hst⟩
      · rw [hscan] at hfst
        cases hfst
      · rwa [hscan] at hst
    dsimp only
    by_cases hr : (s'.tasks idleTask).state = .ready
    · rw [if_pos hr]
      refine .inl ⟨idleTask, by rw [hsame.tasks], hsame.picked ⟨hr, ⟨(s'.tasks idleTask).ticksLeft,
        tasks_setState_self s' idleTask _⟩, fun u hu => tasks_setState_of_ne s' hu _, rfl, rfl, rfl,
        rfl, rfl⟩⟩
    · rw [if_neg hr]
      exact .inr ⟨rfl, hsame⟩
  · rcases nextScan_cases mlfqLevels 0 s with ⟨t', hfst, hp⟩ | ⟨hfst, -⟩
    · rw [hscan] at hfst hp
      obtain rfl : t = t' := Option.some.inj hfst
      exact .inl ⟨t, rfl, hp⟩
    · rw [hscan] at hfst
      cases hfst

theorem SameTable.steady (h : SameTable s s') : Steady s s' :=
  (Steady.refl s).congr h.tasks h.count

theorem Picked.steady (h : Picked s s' t) : Steady s s' := by
  obtain ⟨k, hself⟩ := h.self
  refine ⟨fun u => ?_, h.count, fun u => ?_⟩
  · by_cases hu : u = t
    · rw [hu, hself]
      rfl
    · rw [h.other u hu]
  · by_cases hu : u = t
    · rw [hu, hself, h.was_ready]
      exact ⟨nofun, nofun⟩
    · rw [h.other u hu]

theorem steady_schedNext (s : Sys) : Steady s (schedNext s).2 := by
  rcases schedNext_cases s with ⟨t, -, hp⟩ | ⟨-, hst⟩
  · exact hp.steady
  · exact hst.steady

theorem steady_schedTick (s : Sys) : Steady s (schedTick s) := by
  unfold schedTick
  rcases s.currentTask with _ | t
  · exact .refl s
  · dsimp only
    by_cases hr : (s.tasks t).state = .running
    · rw [if_pos hr]
      have h₁ : Steady s (s.modifyTask t fun task => { task with ticksLeft := task.ticksLeft - 1 }) :=
        steady_modifyTask s t rfl Iff.rfl
      split_ifs
      · refine (h₁.trans (steady_modifyTask _ t (f := fun task => { task with
          priority := if task.priority < mlfqLevels - 1 then task.priority + 1 else task.priority
          state := TaskState.ready }) rfl ?_)).congr rfl rfl
        rw [tasks_modifyTask_self]
        exact iff_of_false nofun (by rw [hr]; exact nofun)
      · exact h₁
    · rw [if_neg hr]
      exact .refl s

theorem steady_schedRequeue (s : Sys) (t : ℕ) : Steady s (schedRequeue s t) := by
  unfold schedRequeue
  by_cases hr : (s.tasks t).state = .running
  · rw [if_pos hr]
    have h : Steady s (s.setState t .ready) := steady_setState (by rw [hr]; exact nofun) nofun
    dsimp only
    split_ifs
    · exact h.congr rfl rfl
    · exact h.congr rfl rfl
  · rw [if_neg hr]
    exact .refl s

end Pick

end BananaOS.Proc
