import BananaOS.Proc.Fates

/-!
# No exit is lost

When a task dies its files have to be closed and a parent that waits for it has to be woken.  The two
duties are spread: `sched_mark_exited` closes the files, and the main loop wakes the parent when the
CPU comes back from a task that is a zombie.  A task that dies in its own slice gets both.  One that
is ended from outside, by `sched_kill`, gets neither, and one that its timer ends in the main loop
while `current_task` still names it gets the first only.
-/

namespace BananaOS.Proc

open Function RingQueue GuardedRun
open Sched (TaskState WaitKind Word)

/-! ## The ledger -/

def WaitsFor (s : Sys) (p d : ℕ) : Prop :=
  p < s.taskCount ∧ (s.tasks p).state = .blocked ∧ (s.tasks p).waitKind = .child ∧
    (s.tasks p).pid = (s.tasks d).ppid ∧
    ((s.tasks p).waitArg.toInt = -1 ∨ ((s.tasks d).pid : ℤ) = (s.tasks p).waitArg.toInt)

instance (s : Sys) (p d : ℕ) : Decidable (WaitsFor s p d) := inferInstanceAs (Decidable (_ ∧ _))

def diesIn (s s' : Sys) : List ℕ :=
  (List.range s.taskCount).filter fun d =>
    decide ((s.tasks d).state ≠ .zombie ∧ (s'.tasks d).state = .zombie)

def owedIn (s s' : Sys) : List ℕ :=
  (List.range s.taskCount).filter fun p => (diesIn s s').any fun d => decide (WaitsFor s p d)

/-- The loop, with the deaths since the iteration began and the parents that waited for them. -/
structure Ledger where
  loop : Loop
  died : List ℕ
  owed : List ℕ

/-- One event; `sched_next` begins a new iteration. -/
def Ledger.step (m : Ledger) (e : Event) : Option Ledger :=
  (m.loop.step e).map fun l =>
    { loop := l
      died := (if m.loop.phase = .top then [] else m.died) ++ diesIn m.loop.sys l.sys
      owed := (if m.loop.phase = .top then [] else m.owed) ++ owedIn m.loop.sys l.sys }

def Ledger.boot (s : Sys) (kernel : List Task) : Ledger := ⟨.boot s kernel, [], []⟩

/-- **At the end of an iteration** every parent that waited for a task that has died is ready, or has
died too, and the fd table holds nothing of the dead. -/
structure NoLostExit (m : Ledger) : Prop where
  woken : m.loop.phase = .top → ∀ p ∈ m.owed,
    (m.loop.sys.tasks p).state = .ready ∨ p ∈ m.died
  closed : m.loop.phase = .top → ∀ d ∈ m.died, ∀ i,
    m.loop.sys.fds i ≠ some ((m.loop.sys.tasks d).pid : ℤ)

def Unattended (s : Sys) (d : ℕ) : Prop :=
  (∀ i < maxFds, s.fds i ≠ some ((s.tasks d).pid : ℤ)) ∧ ∀ p < s.taskCount, ¬ WaitsFor s p d

/-- **Only unattended tasks are ended from outside**: by a signal of another task, by the shell, or by
their timer, and that not while `current_task` names them. -/
def EndsUnattended (s : Sys) : Event → Prop
  | .act (.kill _ pid sig) => ∀ u < s.taskCount, s.currentTask ≠ some u → Struck s pid sig u →
      Unattended s u
  | .poll _ _ now => (∀ u ∈ s.currentTask, ¬ TimerLethal (s.tasks u) now) ∧
      ∀ u < s.taskCount, TimerLethal (s.tasks u) now → Unattended s u
  | .shellKill id => ∀ u ∈ schedGetTask s id, Unattended s u
  | _ => True

section Lists

variable {s s' : Sys} {d p : ℕ}

theorem mem_diesIn : d ∈ diesIn s s' ↔ d < s.taskCount ∧ (s.tasks d).state ≠ .zombie ∧
    (s'.tasks d).state = .zombie := by
  unfold diesIn
  rw [List.mem_filter, List.mem_range, decide_eq_true_eq]

theorem mem_owedIn : p ∈ owedIn s s' ↔ p < s.taskCount ∧ ∃ d ∈ diesIn s s', WaitsFor s p d := by
  unfold owedIn
  rw [List.mem_filter, List.mem_range, List.any_eq_true]
  simp only [decide_eq_true_eq]

end Lists

/-! ## Events without deaths -/

/-- Nobody dies, who is ready stays so, and files are only opened for the current task. -/
structure Harmless (s s' : Sys) : Prop where
  deaths : ∀ u, (s'.tasks u).state = .zombie → (s.tasks u).state = .zombie
  ready : ∀ u, (s.tasks u).state = .ready → (s'.tasks u).state = .ready
  fds : ∀ i o, s'.fds i = some o → s.fds i = some o ∨ (i < maxFds ∧ o = s'.currentPid)

section Harmless

variable {s s' : Sys} {t c par : ℕ}

theorem Harmless.refl (s : Sys) : Harmless s s := ⟨fun _ h => h, fun _ h => h, fun _ _ h => .inl h⟩

theorem Quiet.harmless (h : Quiet s s') (hfds : s'.fds = s.fds) : Harmless s s' := by
  refine ⟨fun u hz => ?_, fun u hr => ?_, fun i o ho => .inl (hfds ▸ ho)⟩
  · rcases (h.tasks u).state with he | ⟨-, hr⟩
    · exact he ▸ hz
    · cases hr.symm.trans hz
  · rcases (h.tasks u).state with he | ⟨-, hr'⟩
    · exact he.trans hr
    · exact hr'

theorem Edited.states (h : Edited s s' t) (u : ℕ) : (s'.tasks u).state = (s.tasks u).state := by
  by_cases hu : u = t
  · rw [hu, h.state]
  · rw [h.other u hu]

theorem Edited.harmless (h : Edited s s' t) : Harmless s s' :=
  ⟨fun u hz => h.states u ▸ hz, fun u hr => (h.states u).trans hr, fun i o ho => .inl (h.fds ▸ ho)⟩

theorem Slept.harmless (h : Slept s s' t) (hr : (s.tasks t).state ≠ .ready) : Harmless s s' := by
  refine ⟨fun u hz => ?_, fun u hru => ?_, fun i o ho => .inl (h.fds ▸ ho)⟩
  · by_cases hu : u = t
    · rw [hu, h.state] at hz
      cases hz
    · rwa [h.other u hu] at hz
  · by_cases hu : u = t
    · exact absurd (hu ▸ hru) hr
    · rwa [h.other u hu]

theorem Started.harmless (h : Started s s' c par) : Harmless s s' := by
  refine ⟨fun u hz => ?_, fun u hr => ?_, fun i o ho => (h.fds i o ho).imp_right fun hw => ?_⟩
  · by_cases hu : u = c
    · rw [hu, h.state] at hz
      cases hz
    · rwa [h.other u hu] at hz
  · by_cases hu : u = c
    · rw [hu, h.state]
    · rwa [h.other u hu]
  · exact ⟨hw.1.trans (by decide), hw.2⟩

theorem Reaped.harmless (h : Reaped s s' c) : Harmless s s' := by
  refine ⟨fun u hz => ?_, fun u hr => ?_, fun i o ho => .inl ?_⟩
  · rw [h.eq] at hz
    by_cases hu : u = c
    · rw [hu, tasks_setState_self] at hz
      cases hz
    · rwa [tasks_setState_of_ne s hu] at hz
  · rw [h.eq]
    by_cases hu : u = c
    · cases h.zombie.symm.trans (hu ▸ hr)
    · rwa [tasks_setState_of_ne s hu]
  · rwa [h.eq] at ho

theorem Wait4Step.harmless {r : Waited × Sys} (h : Wait4Step s t r)
    (hr : (s.tasks t).state ≠ .ready) : Harmless s r.2 := by
  cases h with
  | done r => exact .refl s
  | reaps r s' c _ h => exact h.harmless
  | blocks s' h => exact h.harmless hr

theorem schedTick_harmless (s : Sys) : Harmless s (schedTick s) := by
  unfold schedTick
  rcases s.currentTask with _ | t
  · exact .refl s
  · dsimp only
    by_cases hr : (s.tasks t).state = .running
    · rw [if_pos hr]
      have hmod : ∀ f : Task → Task, (f (s.tasks t)).state ≠ .zombie →
          ∀ s' : Sys, s'.tasks = update s.tasks t (f (s.tasks t)) → s'.fds = s.fds →
          Harmless s s' := by
        intro f hf s' htasks hfds
        refine ⟨fun u hz => ?_, fun u hru => ?_, fun i o ho => .inl (hfds ▸ ho)⟩
        · rw [htasks] at hz
          by_cases hu : u = t
          · rw [hu, update_self] at hz
            exact absurd hz hf
          · rwa [update_of_ne hu] at hz
        · rw [htasks]
          by_cases hu : u = t
          · cases hr.symm.trans (hu ▸ hru)
          · rwa [update_of_ne hu]
      split_ifs
      · refine hmod (fun task => { task with
          ticksLeft := task.ticksLeft - 1
          priority := if task.priority < mlfqLevels - 1 then task.priority + 1 else task.priority
          state := .ready }) nofun _ ?_ rfl
        rw [tasks_mlfqEnqueue]
        unfold Sys.modifyTask
        dsimp only
        rw [update_idem, update_self]
      · exact hmod (fun task => { task with ticksLeft := task.ticksLeft - 1 })
          (by rw [hr]; exact nofun) _ rfl rfl
    · rw [if_neg hr]
      exact .refl s

theorem schedTick_current (h : (schedTick s).currentTask = some t) : s.currentTask = some t := by
  unfold schedTick at h
  rcases hc : s.currentTask with _ | u
  · rw [hc] at h
    exact hc.symm.trans h
  · rw [hc] at h
    dsimp only at h
    split_ifs at h
    · exact hc.symm.trans h
    · exact hc.symm.trans h

def Act.ends : Act → Bool
  | .exit .. => true
  | .kill .. => true
  | _ => false

theorem Act.run_harmless (hi : TableInv s) (hc : OnCpu s t) (hr : (s.tasks t).state = .running)
    {a : Act} (ha : a.ends = false) : Harmless s (a.run s t).2 := by
  have hready : (s.tasks t).state ≠ .ready := by rw [hr]; exact nofun
  have hpid : (s.tasks t).pid ≠ 0 := (hi.pid_pos hc.lt hc.isUser).ne'
  cases a with
  | exit wk code => cases ha
  | kill wk pid sig => cases ha
  | fork vm kstack =>
    rcases sysFork_cases hc.current hc.lt hc.not_reaped vm kstack with
      ⟨c, -, -, h⟩ | ⟨-, h | ⟨c, h⟩⟩
    · exact h.harmless
    · exact h.symm ▸ .refl s
    · exact h.harmless
  | wait4 pid nohang stored =>
    exact (sysWait4_step hi hc.current hpid pid nohang stored).harmless hready
  | wait4Resume want stored =>
    exact (wait4Resume_step hi hc.current hpid want stored).harmless hready
  | block kind arg => exact (slept_schedBlockAndSwitch hc.current kind arg).harmless hready
  | wake p => exact (quiet_wakeWhere p s).harmless (fds_wakeWhere p s)
  | rtSigaction sig oldOk act => exact (edited_sysRtSigaction hc.current sig oldOk act).harmless
  | rtSigprocmask how oldOk set => exact (edited_sysRtSigprocmask hc.current how oldOk set).harmless
  | rtSigtimedwait set deadline now =>
    rcases sysRtSigtimedwait_cases hc.current set deadline now with ⟨-, h⟩ | ⟨-, h⟩
    · exact h.harmless
    · exact h.harmless hready
  | sigtimedResume wanted deadline now =>
    rcases sigtimedRound_cases hc.current wanted deadline now with ⟨-, h⟩ | ⟨-, h⟩
    · exact h.harmless
    · exact h.harmless hready
  | rtSigreturn userRsp frame => exact (edited_sysRtSigreturn hc.current userRsp frame).harmless
  | sigaltstack disable base size =>
    exact (edited_sysSigaltstack hc.current disable base size).harmless
  | setitimer interval value now =>
    exact (edited_sysSetitimer hc.current interval value now).harmless
  | openFd i =>
    show Harmless s (Proc.openFd s i)
    unfold Proc.openFd
    split_ifs with hfree
    · refine ⟨fun _ h => h, fun _ h => h, fun j o ho => ?_⟩
      by_cases hj : j = i
      · have hown : update s.fds i (some s.currentPid) j = some s.currentPid := by
          rw [hj, update_self]
        exact .inr ⟨hj ▸ hfree.1, (Option.some.inj (hown.symm.trans ho)).symm⟩
      · have hown : update s.fds i (some s.currentPid) j = s.fds j :=
          update_of_ne hj ..
        exact .inl (hown.symm.trans ho)
    · exact .refl s
  | closeFd wk i =>
    have h := (quiet_wakeWhere (fun x => wk i x.waitKind x.waitArg) s).harmless
      (fds_wakeWhere _ s)
    refine ⟨h.deaths, h.ready, fun j o ho => .inl ?_⟩
    have hown : update s.fds i none j = some o := ho
    by_cases hj : j = i
    · rw [hj, update_self] at hown
      cases hown
    · rwa [update_of_ne hj] at hown

end Harmless

/-! ## The invariant -/

/-- The main loop is waiting for task `t` or has just got the CPU back from it. -/
def Phase.of (phase : Phase) (t : ℕ) : Prop := phase = .slice t ∨ phase = .back t

theorem Phase.of.eq_of_slice {phase : Phase} {t u : ℕ} (h : phase.of u) (hp : phase = .slice t) :
    u = t := by
  subst hp
  rcases h with h | h <;> cases h
  rfl

theorem Phase.of.eq_of_back {phase : Phase} {t u : ℕ} (h : phase.of u) (hp : phase = .back t) :
    u = t := by
  subst hp
  rcases h with h | h <;> cases h
  rfl

theorem Phase.of_after (t : ℕ) (b : Bool) : (Phase.after t b).of t := by
  cases b
  · exact .inl rfl
  · exact .inr rfl

structure LedgerInv (m : Ledger) : Prop where
  loop : LoopInv m.loop
  owners : ∀ i o, m.loop.sys.fds i = some o → i < maxFds ∧ (o = -1 ∨ 0 < o)
  died_lt : ∀ d ∈ m.died, d < m.loop.sys.taskCount
  owed_lt : ∀ p ∈ m.owed, p < m.loop.sys.taskCount
  closed : ∀ d ∈ m.died, ∀ i, m.loop.sys.fds i ≠ some ((m.loop.sys.tasks d).pid : ℤ)
  current : ∀ t, m.loop.sys.currentTask = some t → t ∈ m.died →
    (m.loop.sys.tasks t).state = .zombie ∧ m.loop.phase.of t
  back : ∀ t, m.loop.phase = .back t → m.loop.sys.currentTask = some t
  /-- Where a parent that was waiting is now. -/
  due : ∀ p ∈ m.owed, p ∈ m.died ∨ (m.loop.sys.tasks p).state = .ready ∨
    ∃ t, m.loop.phase.of t ∧ (m.loop.sys.tasks t).state = .zombie ∧ WaitsFor m.loop.sys p t

section Table

variable {s s' : Sys} {o : Option (ℕ × Option ℕ)} {u v t : ℕ}

theorem TableInv.pid_inj (hi : TableInv s) (h : (s.tasks u).pid = (s.tasks v).pid)
    (hpos : 0 < (s.tasks u).pid) : u = v := by
  have hu := hi.pid u
  have hv := hi.pid v
  omega

theorem TableStep.pid (h : TableStep s s' o) (hi : TableInv s) (hlt : u < s.taskCount) :
    (s'.tasks u).pid = (s.tasks u).pid := by
  have hstarted : ∀ {c par}, Started s s' c par → (s'.tasks u).pid = (s.tasks u).pid := by
    intro c par h
    by_cases huc : u = c
    · subst huc
      have hr : (s.tasks u).state = .reaped := (h.free.resolve_right hlt.ne).2
      rw [h.fields.2.1, hi.process u hlt (hi.isUser hlt (.inr (.inr hr)))]
    · rw [h.other u huc]
  cases h with
  | steady h => exact (Task.ident_inj (h.ident u)).2.1
  | failed c h => exact hstarted h
  | started c forker h => exact hstarted h
  | reaped c h =>
    rw [h.eq]
    by_cases huc : u = c
    · rw [huc, tasks_setState_self]
    · rw [tasks_setState_of_ne s huc]

theorem TableStep.count_le (h : TableStep s s' o) : s.taskCount ≤ s'.taskCount := by
  have hstarted : ∀ {c par}, Started s s' c par → s.taskCount ≤ s'.taskCount := by
    intro c par h
    rcases h.count with hc | ⟨-, hc⟩ <;> omega
  cases h with
  | steady h => exact h.count.ge
  | failed c h => exact hstarted h
  | started c forker h => exact hstarted h
  | reaped c h => rw [h.eq]; exact le_rfl

theorem currentPid_cases (s : Sys) : s.currentPid = -1 ∨
    ∃ t, s.currentTask = some t ∧ 0 < (s.tasks t).pid ∧ s.currentPid = (s.tasks t).pid := by
  unfold Sys.currentPid
  rcases s.currentTask with _ | t
  · exact .inl rfl
  · dsimp only
    by_cases hp : 0 < (s.tasks t).pid
    · rw [if_pos hp]
      exact .inr ⟨t, rfl, hp, rfl⟩
    · rw [if_neg hp]
      exact .inl rfl

theorem WaitsFor.keep {p d : ℕ} (h : WaitsFor s p d) {L : Prop}
    (hp : Fate L (s.tasks p) (s'.tasks p)) (hst : (s'.tasks p).state = (s.tasks p).state)
    (hd : (s'.tasks d).ident = (s.tasks d).ident) (hcount : s.taskCount ≤ s'.taskCount) :
    WaitsFor s' p d := by
  obtain ⟨hlt, hb, hk, hpar, harg⟩ := h
  obtain ⟨-, hpid, hppid, -⟩ := Task.ident_inj hd
  refine ⟨hlt.trans_le hcount, hst.trans hb, hp.waitKind.trans hk, ?_, ?_⟩
  · rw [(Task.ident_inj hp.ident).2.1, hppid]
    exact hpar
  · rw [hp.waitArg, hpid]
    exact harg

end Table

section Step

variable {m : Ledger} {l : Loop} {e : Event}

theorem diesIn_eq_nil {s s' : Sys}
    (h : ∀ u, (s'.tasks u).state = .zombie → (s.tasks u).state = .zombie) : diesIn s s' = [] := by
  refine List.eq_nil_iff_forall_not_mem.mpr fun d hd => ?_
  obtain ⟨-, hne, hz⟩ := mem_diesIn.mp hd
  exact hne (h d hz)

theorem owedIn_eq_nil {s s' : Sys} (h : ∀ d ∈ diesIn s s', ∀ p < s.taskCount, ¬ WaitsFor s p d) :
    owedIn s s' = [] := by
  refine List.eq_nil_iff_forall_not_mem.mpr fun p hp => ?_
  obtain ⟨hlt, d, hd, hw⟩ := mem_owedIn.mp hp
  exact h d hd p hlt hw

def Ledger.after (m : Ledger) (l : Loop) : Ledger :=
  ⟨l, m.died ++ diesIn m.loop.sys l.sys, m.owed ++ owedIn m.loop.sys l.sys⟩

variable (hi : LedgerInv m) (hl : m.loop.step e = some l)

include hi hl

theorem LedgerInv.after (hfds : ∀ i o, l.sys.fds i = some o → m.loop.sys.fds i = some o ∨
      (i < maxFds ∧ o = l.sys.currentPid ∧ ∀ t, l.sys.currentTask = some t → t ∉ m.died))
    (hgone : ∀ d ∈ diesIn m.loop.sys l.sys, ∀ i, l.sys.fds i ≠ some ((l.sys.tasks d).pid : ℤ))
    (hcur : ∀ u, l.sys.currentTask = some u → u ∈ (m.after l).died →
      (l.sys.tasks u).state = .zombie ∧ l.phase.of u)
    (hback : ∀ u, l.phase = .back u → l.sys.currentTask = some u)
    (hdue : ∀ p ∈ (m.after l).owed, p ∈ (m.after l).died ∨ (l.sys.tasks p).state = .ready ∨
      ∃ t, l.phase.of t ∧ (l.sys.tasks t).state = .zombie ∧ WaitsFor l.sys p t) :
    LedgerInv (m.after l) := by
  have htable := Loop.table_step hi.loop hl
  refine ⟨hi.loop.step hl, fun i o ho => ?_, fun d hd => ?_, fun p hp => ?_, fun d hd i ho => ?_,
    hcur, hback, hdue⟩
  · rcases hfds i o ho with h | ⟨hlt, rfl, -⟩
    · exact hi.owners i o h
    · refine ⟨hlt, (currentPid_cases l.sys).imp_right ?_⟩
      rintro ⟨t, -, hpos, heq⟩
      rw [heq]
      exact_mod_cast hpos
  · rcases List.mem_append.mp hd with hd | hd
    · exact (hi.died_lt d hd).trans_le htable.count_le
    · exact (mem_diesIn.mp hd).1.trans_le htable.count_le
  · rcases List.mem_append.mp hp with hp | hp
    · exact (hi.owed_lt p hp).trans_le htable.count_le
    · exact (mem_owedIn.mp hp).1.trans_le htable.count_le
  · rcases List.mem_append.mp hd with hd | hd
    · dsimp only [Ledger.after] at ho
      rcases hfds i _ ho with h | ⟨-, heq, hcur⟩
      · rw [htable.pid hi.loop.table (hi.died_lt d hd)] at h
        exact hi.closed d hd i h
      · rcases currentPid_cases l.sys with hneg | ⟨t, ht, hpos, hpid⟩
        · rw [hneg] at heq
          omega
        · rw [hpid] at heq
          have hdt : d = t :=
            (hi.loop.table.step htable).pid_inj (Int.natCast_inj.mp heq) (by omega)
          exact hcur t ht (hdt ▸ hd)
    · exact hgone d hd i ho

theorem LedgerInv.deathless (hh : Harmless m.loop.sys l.sys)
    (hopen : l.sys.fds = m.loop.sys.fds ∨ ∀ u, l.sys.currentTask = some u → u ∉ m.died)
    (hcur : ∀ u, l.sys.currentTask = some u → u ∈ m.died →
      (l.sys.tasks u).state = .zombie ∧ l.phase.of u)
    (hback : ∀ u, l.phase = .back u → l.sys.currentTask = some u)
    (hdue : ∀ p t, m.loop.phase.of t → (m.loop.sys.tasks t).state = .zombie →
      WaitsFor m.loop.sys p t → (l.sys.tasks p).state = .ready ∨
        ∃ t, l.phase.of t ∧ (l.sys.tasks t).state = .zombie ∧ WaitsFor l.sys p t) :
    LedgerInv (m.after l) := by
  have hnil := diesIn_eq_nil hh.deaths
  have hafter : m.after l = ⟨l, m.died, m.owed⟩ := by
    rw [Ledger.after, hnil, owedIn_eq_nil (by rw [hnil]; exact nofun), List.append_nil,
      List.append_nil]
  refine hi.after hl (fun i o ho => ?_) (by rw [hnil]; exact nofun) (by rwa [hafter]) hback ?_
  · rcases hopen with hfds | hnew
    · exact .inl (hfds ▸ ho)
    · exact (hh.fds i o ho).imp_right fun h => ⟨h.1, h.2, hnew⟩
  · rw [hafter]
    intro p hpo
    rcases hi.due p hpo with h | h | ⟨t, hphase, hz, hw⟩
    · exact .inl h
    · exact .inr (.inl (hh.ready p h))
    · exact .inr (hdue p t hphase hz hw)

theorem LedgerInv.harmless_slice {t : ℕ}
    (hp : m.loop.phase = .slice t) (hr : (m.loop.sys.tasks t).state = .running)
    (hh : Harmless m.loop.sys l.sys) (hcur : l.sys.currentTask = some t) (hp' : l.phase.of t) :
    LedgerInv (m.after l) := by
  have ht : t ∉ m.died := fun h =>
    nomatch hr.symm.trans (hi.current t (hi.loop.slice t hp).current h).1
  have hnew : ∀ u, l.sys.currentTask = some u → u ∉ m.died := fun u hu =>
    Option.some.inj (hcur.symm.trans hu) ▸ ht
  refine hi.deathless hl hh (.inr hnew) (fun u hu hd => absurd hd (hnew u hu))
    (fun u hu => hp'.eq_of_back hu ▸ hcur) fun p t' hphase hz _ => ?_
  rw [hphase.eq_of_slice hp, hr] at hz
  cases hz

theorem LedgerInv.harmless_outside (hp : m.loop.phase = .console) (hh : Harmless m.loop.sys l.sys)
    (hcur : ∀ t, l.sys.currentTask = some t → m.loop.sys.currentTask = some t)
    (hp' : ∀ t, l.phase ≠ .back t) :
    LedgerInv (m.after l) := by
  have hof : ∀ t, ¬ m.loop.phase.of t := by
    rintro t (h | h)
    · cases h.symm.trans hp
    · cases h.symm.trans hp
  have hnew : ∀ u, l.sys.currentTask = some u → u ∉ m.died := fun u hu hd =>
    hof u (hi.current u (hcur u hu) hd).2
  exact hi.deathless hl hh (.inr hnew) (fun u hu hd => absurd hd (hnew u hu))
    (fun u hu => absurd hu (hp' u)) fun _ t hphase => absurd hphase (hof t)

theorem LedgerInv.same_outside
    (hp : m.loop.phase = .console) (hsys : l.sys = m.loop.sys) (hp' : ∀ t, l.phase ≠ .back t) :
    LedgerInv (m.after l) :=
  hi.harmless_outside hl hp (hsys ▸ .refl l.sys) (fun _ h => hsys ▸ h) hp'

theorem LedgerInv.deaths_outside (hof : ∀ t, ¬ m.loop.phase.of t)
    (hfate : ∀ u, Fate (u < m.loop.sys.taskCount → Unattended m.loop.sys u) (m.loop.sys.tasks u)
      (l.sys.tasks u))
    (hfds : l.sys.fds = m.loop.sys.fds)
    (hcur : ∀ t, l.sys.currentTask = some t → m.loop.sys.currentTask = some t ∧
      t ∉ diesIn m.loop.sys l.sys) (hp' : ∀ t, l.phase ≠ .back t) :
    LedgerInv (m.after l) := by
  have hun : ∀ d ∈ diesIn m.loop.sys l.sys, Unattended m.loop.sys d := by
    intro d hd
    obtain ⟨hlt, hne, hz⟩ := mem_diesIn.mp hd
    exact (hfate d).of_zombie hne hz hlt
  refine hi.after hl (fun i o ho => .inl (hfds ▸ ho)) (fun d hd i ho => ?_) (fun u hu hd => ?_)
    (fun u hu => absurd hu (hp' u)) fun p hpo => ?_
  · rw [(Loop.table_step hi.loop hl).pid hi.loop.table (mem_diesIn.mp hd).1, hfds] at ho
    exact (hun d hd).1 i (hi.owners i _ ho).1 ho
  · obtain ⟨hu', hnew⟩ := hcur u hu
    rcases List.mem_append.mp hd with hd | hd
    · exact absurd (hi.current u hu' hd).2 (hof u)
    · exact absurd hd hnew
  · rw [Ledger.after, owedIn_eq_nil fun d hd => (hun d hd).2, List.append_nil] at hpo
    rcases hi.due p hpo with h | h | ⟨t', hphase, -⟩
    · exact .inl (List.mem_append_left _ h)
    · rcases (hfate p).of_ready h with hr | hz
      · exact .inr (.inl hr)
      · refine .inl (List.mem_append_right _ (mem_diesIn.mpr ⟨hi.owed_lt p hpo, ?_, hz⟩))
        rw [h]
        exact nofun
    · exact absurd hphase (hof t')

theorem LedgerInv.deaths_slice {t : ℕ}
    (hp : m.loop.phase = .slice t) (hr : (m.loop.sys.tasks t).state = .running)
    (hfate : ∀ u, u ≠ t → Fate (u < m.loop.sys.taskCount → Unattended m.loop.sys u)
      (m.loop.sys.tasks u) (l.sys.tasks u))
    (hclose : Closes m.loop.sys l.sys t) (hcur : l.sys.currentTask = some t) (hp' : l.phase.of t) :
    LedgerInv (m.after l) := by
  have htable := Loop.table_step hi.loop hl
  have hc := hi.loop.slice t hp
  have ht : t ∉ m.died := fun h => nomatch hr.symm.trans (hi.current t hc.current h).1
  have hrun : (m.loop.sys.tasks t).state ≠ .zombie := by rw [hr]; exact nofun
  have hid : (l.sys.tasks t).ident = (m.loop.sys.tasks t).ident :=
    (htable.keeps hc.lt hc.not_reaped).2
  have hun : ∀ d ∈ diesIn m.loop.sys l.sys, d ≠ t → Unattended m.loop.sys d := by
    intro d hd hdt
    obtain ⟨hlt, hne, hz⟩ := mem_diesIn.mp hd
    exact (hfate d hdt).of_zombie hne hz hlt
  have hready : ∀ p, p < m.loop.sys.taskCount → p ≠ t → (m.loop.sys.tasks p).state ≠ .zombie →
      (l.sys.tasks p).state = .zombie → p ∈ m.died ++ diesIn m.loop.sys l.sys :=
    fun p hlt _ hne hz => List.mem_append_right _ (mem_diesIn.mpr ⟨hlt, hne, hz⟩)
  refine hi.after hl (fun i o ho => .inl (hclose.sub i o ho)) (fun d hd i ho => ?_)
    (fun u hu hd => ?_) (fun u hu => hp'.eq_of_back hu ▸ hcur) fun p hpo => ?_
  · obtain ⟨hlt, -, hz⟩ := mem_diesIn.mp hd
    have hold := hclose.sub i _ ho
    have hi' := (hi.owners i _ hold).1
    rw [htable.pid hi.loop.table hlt] at ho hold
    by_cases hdt : d = t
    · exact hclose.gone hrun (hdt ▸ hz) i hi' (hdt ▸ ho)
    · exact (hun d hd hdt).1 i hi' hold
  · obtain rfl : t = u := Option.some.inj (hcur.symm.trans hu)
    rcases List.mem_append.mp hd with hd | hd
    · exact absurd hd ht
    · exact ⟨(mem_diesIn.mp hd).2.2, hp'⟩
  · rcases List.mem_append.mp hpo with hpo | hpo
    · have hlt := hi.owed_lt p hpo
      rcases hi.due p hpo with h | h | ⟨t', hphase, hz, -⟩
      · exact .inl (List.mem_append_left _ h)
      · have hpt : p ≠ t := by
          rintro rfl
          cases hr.symm.trans h
        rcases (hfate p hpt).of_ready h with hr' | hz'
        · exact .inr (.inl hr')
        · exact .inl (hready p hlt hpt (by rw [h]; exact nofun) hz')
      · rw [hphase.eq_of_slice hp, hr] at hz
        cases hz
    · -- a parent that waited for one of the dead: for the task of the slice
      obtain ⟨hlt, d, hd, hw⟩ := mem_owedIn.mp hpo
      by_cases hdt : d = t
      · subst hdt
        have hpd : p ≠ d := by
          rintro rfl
          cases hr.symm.trans hw.2.1
        have hf := hfate p hpd
        rcases hf.state with he | ⟨-, hr'⟩ | ⟨-, hz'⟩
        · exact .inr (.inr ⟨d, hp', (mem_diesIn.mp hd).2.2, hw.keep hf he hid htable.count_le⟩)
        · exact .inr (.inl hr')
        · exact .inl (hready p hlt hpd (by rw [hw.2.1]; exact nofun) hz')
      · exact absurd hw ((hun d hd hdt).2 p hlt)

end Step

/-! ## The rounds of the loop -/

section Rounds

variable {m m' : Ledger} {l : Loop} {e : Event}

theorem schedRequeue_deaths (s : Sys) (t u : ℕ)
    (hz : ((schedRequeue s t).tasks u).state = .zombie) : (s.tasks u).state = .zombie := by
  unfold schedRequeue at hz
  dsimp only at hz
  split_ifs at hz
  any_goals exact hz
  all_goals
    by_cases hu : u = t
    · subst hu
      simp at hz
    · simpa [tasks_setState_of_ne _ hu] using hz

theorem schedRequeue_fds (s : Sys) (t : ℕ) : (schedRequeue s t).fds = s.fds := by
  unfold schedRequeue
  dsimp only
  split_ifs <;> rfl

theorem schedNext_deaths (s : Sys) (u : ℕ) (hz : ((schedNext s).2.tasks u).state = .zombie) :
    (s.tasks u).state = .zombie := by
  rcases schedNext_cases s with ⟨t, -, hp⟩ | ⟨-, hst⟩
  · by_cases hu : u = t
    · obtain ⟨k, hself⟩ := hp.self
      rw [hu, hself] at hz
      cases hz
    · rwa [hp.other u hu] at hz
  · rwa [hst.tasks] at hz

theorem schedNext_fds (s : Sys) : (schedNext s).2.fds = s.fds := by
  rcases schedNext_cases s with ⟨t, -, hp⟩ | ⟨-, hst⟩
  · exact hp.fds
  · exact hst.fds

theorem dispatch_deaths (s : Sys) (doorbell : Task → Bool) :
    (∀ u, ((dispatch s doorbell).sys.tasks u).state = .zombie → (s.tasks u).state = .zombie) ∧
      (dispatch s doorbell).sys.fds = s.fds := by
  have hnext := schedNext_deaths s
  have hfds := schedNext_fds s
  unfold dispatch
  rcases hn : schedNext s with ⟨_ | id, s₁⟩
  all_goals rw [hn] at hnext hfds
  · exact ⟨hnext, hfds⟩
  dsimp only at hnext hfds ⊢
  rcases schedGetTask s₁ id with _ | t
  · exact ⟨hnext, hfds⟩
  dsimp only
  split_ifs
  · refine ⟨fun u hz => ?_, hfds⟩
    by_cases hu : u = t
    · subst hu
      unfold schedAfterSwitch at hz
      rw [tasks_setState_self] at hz
      cases hz
    · unfold schedAfterSwitch at hz
      rw [tasks_setState_of_ne _ hu] at hz
      exact hnext u hz
  · exact ⟨hnext, hfds⟩
  · have hq := (quiet_wakeWhere doorbell s₁).harmless (fds_wakeWhere doorbell s₁)
    exact ⟨fun u hz => hnext u (hq.deaths u (schedRequeue_deaths _ t u hz)),
      (schedRequeue_fds _ t).trans ((fds_wakeWhere doorbell s₁).trans hfds)⟩
  · exact ⟨fun u hz => hnext u (schedRequeue_deaths _ t u hz), (schedRequeue_fds _ t).trans hfds⟩

section

variable (hi : LedgerInv m)

include hi

theorem LedgerInv.next (doorbell : Task → Bool)
    (hl : m.loop.step (.next doorbell) = some (dispatch m.loop.sys doorbell)) :
    LedgerInv ⟨dispatch m.loop.sys doorbell,
      [] ++ diesIn m.loop.sys (dispatch m.loop.sys doorbell).sys,
      [] ++ owedIn m.loop.sys (dispatch m.loop.sys doorbell).sys⟩ := by
  obtain ⟨hdeaths, hfds⟩ := dispatch_deaths m.loop.sys doorbell
  have hnil := diesIn_eq_nil hdeaths
  rw [hnil, owedIn_eq_nil (by rw [hnil]; exact nofun), List.append_nil]
  refine ⟨hi.loop.step hl, fun i o ho => hi.owners i o (hfds ▸ ho), nofun, nofun, nofun,
    fun _ _ h => absurd h List.not_mem_nil, fun t ht => ?_, nofun⟩
  rcases (dispatch_cases m.loop.sys doorbell).2 with hp | ⟨u, hp, -⟩
  · cases hp.symm.trans ht
  · cases hp.symm.trans ht

theorem LedgerInv.sysret (hl : m.loop.step e = some l) {t : ℕ} (hp : m.loop.phase = .slice t)
    (hedit : Edited { m.loop.sys with exitRequest := false } l.sys t) (hp' : l.phase.of t) :
    LedgerInv (m.after l) := by
  have hc := hi.loop.slice t hp
  have hh := hedit.harmless
  have hst : ∀ u, (l.sys.tasks u).state = (m.loop.sys.tasks u).state := hedit.states
  have hcur : l.sys.currentTask = some t := hedit.current.trans hc.current
  refine hi.deathless hl ⟨hh.deaths, hh.ready, hh.fds⟩ (.inl hedit.fds) (fun u hu hd => ?_)
    (fun u hu => hp'.eq_of_back hu ▸ hcur) fun p t' hphase hz hw => .inr ?_
  · obtain rfl : t = u := Option.some.inj (hcur.symm.trans hu)
    exact ⟨(hst t).trans (hi.current t hc.current hd).1, hp'⟩
  · obtain rfl := hphase.eq_of_slice hp
    have hpt : p ≠ t' := by
      rintro rfl
      cases hz.symm.trans hw.2.1
    have hsame : l.sys.tasks p = m.loop.sys.tasks p := hedit.other p hpt
    refine ⟨t', hp', (hst t').trans hz, hw.keep (L := False) ?_ (hst p) hedit.ident
      (Loop.table_step hi.loop hl).count_le⟩
    rw [hsame]
    exact .refl _

theorem LedgerInv.afterSlice {t : ℕ} (hp : m.loop.phase = .back t)
    (hl : m.loop.step .back = some ⟨afterSlice m.loop.sys t, .polls⟩) :
    LedgerInv (m.after ⟨Proc.afterSlice m.loop.sys t, .polls⟩) := by
  have hcurrent := hi.back t hp
  set q : Task → Bool := fun x => decide (x.waitKind = .child ∧
    x.pid = (m.loop.sys.tasks t).ppid ∧
    (x.waitArg.toInt = -1 ∨ ((m.loop.sys.tasks t).pid : ℤ) = x.waitArg.toInt)) with hq
  have hquiet := quiet_wakeWhere q m.loop.sys
  have hcases : ((m.loop.sys.tasks t).state = .zombie ∧ Proc.afterSlice m.loop.sys t =
      { wakeWhere q m.loop.sys with currentTask := none }) ∨
      ((m.loop.sys.tasks t).state ≠ .zombie ∧ Proc.afterSlice m.loop.sys t = m.loop.sys) := by
    unfold Proc.afterSlice
    split_ifs with hb hz
    · exact .inr ⟨by rw [hb]; exact nofun, rfl⟩
    · exact .inl ⟨hz, rfl⟩
    · exact .inr ⟨hz, rfl⟩
  have hharm : Harmless m.loop.sys (Proc.afterSlice m.loop.sys t) := by
    rcases hcases with ⟨-, h⟩ | ⟨-, h⟩
    · have hw := hquiet.harmless (fds_wakeWhere q m.loop.sys)
      rw [h]
      exact ⟨hw.deaths, hw.ready, fun i o ho => .inl (fds_wakeWhere q m.loop.sys ▸ ho)⟩
    · rw [h]
      exact .refl _
  have hnew : ∀ u, (Proc.afterSlice m.loop.sys t).currentTask = some u → u ∉ m.died := by
    intro u hu hd
    rcases hcases with ⟨-, h⟩ | ⟨hz, h⟩
    · rw [h] at hu
      cases hu
    · rw [h] at hu
      obtain rfl : t = u := Option.some.inj (hcurrent.symm.trans hu)
      exact hz (hi.current t hu hd).1
  refine hi.deathless hl hharm (.inr hnew) (fun u hu hd => absurd hd (hnew u hu)) nofun
    fun p t' hphase hz hw => .inl ?_
  obtain rfl := hphase.eq_of_back hp
  obtain ⟨-, heq⟩ := hcases.resolve_right fun h => h.1 hz
  have hids := hi.loop.table.ids p hw.1
  have hawake := wakeWhere_wakes (p := q) hw.1 (hids.symm ▸ hw.1) (decide_eq_true hw.2.2)
  dsimp only
  rw [heq]
  exact ((hquiet.tasks p).state.resolve_left fun h => hawake (h.trans hw.2.1)).2

theorem LedgerInv.step (hok : EndsUnattended m.loop.sys e)
    (hstep : m.step e = some m') : LedgerInv m' := by
  obtain ⟨l, hl, rfl⟩ := Option.map_eq_some_iff.mp hstep
  obtain ⟨⟨s, phase⟩, died, owed⟩ := m
  cases Loop.step_cases hl with
  | next _ doorbell => exact hi.next doorbell hl
  | act _ t a hr =>
    have hc := hi.loop.slice t rfl
    have hpid := hi.loop.table.pid_pos hc.lt hc.isUser
    have hact := Act.run_acted hi.loop.table hc.lt hc.isUser hc.current hr a
    have hcur : (a.run s t).2.currentTask = some t := by
      cases hrun : a.run s t with
      | mk b s' =>
        dsimp only at hact
        rw [hrun] at hact
        cases hact with
        | returns _ _ hown => exact hown.current.trans hc.current
        | blocks _ _ h => exact h.current.trans hc.current
    cases ha : a.ends with
    | false =>
      exact hi.harmless_slice hl rfl hr (Act.run_harmless hi.loop.table hc hr ha) hcur
        (Phase.of_after ..)
    | true =>
      cases a with
      | exit wk code =>
        have hex := schedMarkExited_spec wk s t code
        have hcl := closes_exit hpid hex
        exact hi.deaths_slice hl rfl hr (fun u hu => (hex.other u hu).fate) ⟨hcl.sub, hcl.gone⟩
          hcur (Phase.of_after t false)
      | kill wk pid sig =>
        have hal : Alive s t := ⟨hc.lt, by rw [hr]; exact nofun, hc.not_reaped⟩
        obtain ⟨hfate, hcl⟩ := sysKill_fate wk hi.loop.table.ids hc.current hal
          (by rw [hr]; exact nofun) hpid pid sig
        refine hi.deaths_slice hl rfl hr (fun u hu => (hfate u hu).mono fun hs hlt => ?_) hcl hcur
          (Phase.of_after t false)
        refine hok u hlt ?_ hs
        rw [show s.currentTask = some t from hc.current]
        exact fun h => hu (Option.some.inj h).symm
      | _ => cases ha
  | sysret _ t userRsp writable =>
    have hc := hi.loop.slice t rfl
    have hspec := syscallEnd_spec (s := s) hc.current userRsp writable
    exact hi.sysret hl rfl hspec.2 (Phase.of_after ..)
  | fault _ t wk sig faultRsp writable hr =>
    have hc := hi.loop.slice t rfl
    have hpid := hi.loop.table.pid_pos hc.lt hc.isUser
    have hf := userFault_cases hc.current wk sig faultRsp writable
    dsimp only at hf hl ⊢
    generalize userFault wk s t sig faultRsp writable = r at hf hl ⊢
    cases hf with
    | handled s' h =>
      exact hi.harmless_slice hl rfl hr h.harmless (h.current.trans hc.current) (.inl rfl)
    | died s' h =>
      have hcl := closes_exit hpid h
      exact hi.deaths_slice hl rfl hr (fun u hu => (h.other u hu).fate) ⟨hcl.sub, hcl.gone⟩
        (h.current.trans hc.current) (.inr rfl)
    | unwound s' _ _ h =>
      have hh := h.harmless
      exact hi.harmless_slice hl rfl hr ⟨hh.deaths, hh.ready, fun i o ho => .inl (h.fds ▸ ho)⟩
        (h.current.trans hc.current) (.inr rfl)
  | back _ t => exact hi.afterSlice rfl hl
  | poll _ key wk now =>
    have hspare : ∀ u ∈ s.currentTask, ¬ TimerLethal (s.tasks u) now := hok.1
    obtain ⟨hfate, hfds, hcur⟩ := pollAll_fate wk hi.loop.table.ids key hspare
    refine hi.deaths_outside hl ?_ (fun u => (hfate u).mono fun htl hlt => hok.2 u hlt htl) hfds
      (fun u hu => ?_) nofun
    · rintro t (h | h) <;> cases h
    · have hu' : s.currentTask = some u := hcur ▸ hu
      refine ⟨hu', fun hd => ?_⟩
      obtain ⟨-, hne, hz⟩ := mem_diesIn.mp hd
      exact hspare u hu' ((hfate u).of_zombie hne hz)
  | reapForeground _ pid =>
    rcases schedForceReap_cases hi.loop.table pid with heq | ⟨c, hc⟩
    · exact hi.same_outside hl rfl heq nofun
    · refine hi.harmless_outside hl rfl hc.harmless ?_ nofun
      dsimp only
      rw [hc.eq]
      exact fun _ h => h
  | launch _ kstack =>
    have hstarted : ∀ {c par}, Started s (schedSpawnProcess s kstack).2 c par → LedgerInv
        (Ledger.after ⟨⟨s, _⟩, died, owed⟩ ⟨(schedSpawnProcess s kstack).2, .console⟩) := fun h =>
      hi.harmless_outside hl rfl h.harmless (fun u hu => h.current ▸ hu) nofun
    rcases schedSpawnProcess_cases s kstack with ⟨c, -, h⟩ | ⟨-, heq | ⟨c, h⟩⟩
    · exact hstarted h
    · exact hi.same_outside hl rfl heq nofun
    · exact hstarted h
  | shellKill _ id =>
    dsimp only at hl ⊢
    unfold Proc.shellKill at hl ⊢
    rcases hget : schedGetTask s id with _ | v
    · rw [hget] at hl
      exact hi.same_outside hl rfl rfl nofun
    · rw [hget] at hl
      have hal := (schedGetTask_eq_some hget).1
      have hk := schedKill_spec hal.lt hal.not_zombie
      refine hi.deaths_outside hl ?_ (fun u => ?_) hk.fds (fun u hu => ?_) nofun
      · rintro t (h | h) <;> cases h
      · by_cases huv : u = v
        · subst huv
          dsimp only
          rw [hk.self]
          exact ⟨rfl, rfl, rfl, .inr (.inr ⟨fun _ => hok u hget, rfl⟩)⟩
        · dsimp only
          rw [hk.other u huv]
          exact .refl _
      · -- `sched_kill` takes the CPU from the task it ends
        dsimp only at hu ⊢
        rw [hk.current] at hu
        split_ifs at hu with hc
        refine ⟨hu, fun hd => ?_⟩
        obtain ⟨-, hne, hz⟩ := mem_diesIn.mp hd
        have huv : u ≠ v := fun h => hc (h ▸ hu)
        rw [hk.other u huv] at hz
        exact hne hz
  | netPoll _ =>
    have hq := quiet_wakeWhere (fun x => decide (x.waitKind = .net ∧ x.waitArg = 0)) s
    exact hi.harmless_outside hl rfl (hq.harmless (fds_wakeWhere _ s))
      (fun u hu => hq.current ▸ hu) nofun
  | tick _ =>
    exact hi.harmless_outside hl rfl (schedTick_harmless s) (fun u hu => schedTick_current hu) nofun

theorem LedgerInv.noLostExit : NoLostExit m := by
  refine ⟨fun htop p hp => ?_, fun _ => hi.closed⟩
  rcases hi.due p hp with h | h | ⟨t, hphase, -⟩
  · exact .inr h
  · exact .inl h
  · rcases hphase with h | h
    · cases htop.symm.trans h
    · cases htop.symm.trans h

end

theorem ledgerInv_boot (s : Sys) (kernel : List Task) : LedgerInv (Ledger.boot s kernel) := by
  have hfds : ∀ (l : List Task) (s₀ : Sys), (l.foldl schedAdd s₀).fds = s₀.fds := by
    intro l
    induction l with
    | nil => exact fun _ => rfl
    | cons x l ih =>
      intro s₀
      rw [List.foldl_cons, ih]
      unfold schedAdd
      split_ifs <;> rfl
  refine ⟨loopInv_boot s kernel, fun i o ho => ?_, nofun, nofun, nofun,
    fun _ _ h => absurd h List.not_mem_nil, nofun, nofun⟩
  have hnone : (Loop.boot s kernel).sys.fds i = none := by
    unfold Loop.boot
    rw [hfds]
    rfl
  cases hnone.symm.trans ho

/-- **No exit is lost**, in every run in which only tasks without files and without a waiting parent are
ended from outside. -/
theorem no_lost_exit (s : Sys) (kernel : List Task) {es : List Event}
    (hrun : Run Ledger.step (fun m e => EndsUnattended m.loop.sys e) (.boot s kernel) es m) :
    NoLostExit m :=
  LedgerInv.noLostExit
    (hrun.invariant (fun _ _ _ hi hok hstep => hi.step hok hstep) (ledgerInv_boot s kernel))

end Rounds

instance (s : Sys) (t : ℕ) : Decidable (Alive s t) :=
  decidable_of_iff (t < s.taskCount ∧ (s.tasks t).state ≠ .zombie ∧ (s.tasks t).state ≠ .reaped)
    ⟨fun h => ⟨h.1, h.2.1, h.2.2⟩, fun h => ⟨h.lt, h.not_zombie, h.not_reaped⟩⟩

instance (s : Sys) (pid : Word) (t : ℕ) : Decidable (KillReaches s pid t) :=
  inferInstanceAs (Decidable (_ ∨ _))

instance (s : Sys) (pid sig : Word) (u : ℕ) : Decidable (Struck s pid sig u) :=
  inferInstanceAs (Decidable (_ ∧ _))

instance (x : Task) (now : ℕ) : Decidable (TimerLethal x now) := inferInstanceAs (Decidable (_ ∧ _))

instance (s : Sys) (d : ℕ) : Decidable (Unattended s d) := inferInstanceAs (Decidable (_ ∧ _))

instance (s : Sys) (e : Event) : Decidable (EndsUnattended s e) :=
  match e with
  | .act (.kill _ pid sig) => inferInstanceAs (Decidable (∀ u < s.taskCount, s.currentTask ≠ some u →
      Struck s pid sig u → Unattended s u))
  | .poll _ _ now => inferInstanceAs (Decidable ((∀ u ∈ s.currentTask, ¬ TimerLethal (s.tasks u) now) ∧
      ∀ u < s.taskCount, TimerLethal (s.tasks u) now → Unattended s u))
  | .shellKill id => inferInstanceAs (Decidable (∀ u ∈ schedGetTask s id, Unattended s u))
  | .next _ | .sysret .. | .fault .. | .back | .reapForeground _ | .launch _ | .netPoll | .tick =>
    isTrue trivial
  | .act (.exit ..) | .act (.fork ..) | .act (.wait4 ..) | .act (.wait4Resume ..) | .act (.block ..)
  | .act (.wake _) | .act (.rtSigaction ..) | .act (.rtSigprocmask ..) | .act (.rtSigtimedwait ..)
  | .act (.sigtimedResume ..) | .act (.rtSigreturn ..) | .act (.sigaltstack ..)
  | .act (.setitimer ..) | .act (.openFd _) | .act (.closeFd ..) => isTrue trivial

def childExits : List Event :=
  launchRound ++ round [.act (.fork true true), .act (.wait4 (-1) false true)] ++ round exits

theorem no_lost_exit_child :
    ∃ m, Run Ledger.step (fun m e => EndsUnattended m.loop.sys e) (.boot blankSys []) childExits m ∧
      m.died = [2] ∧ m.owed = [1] ∧ (m.loop.sys.tasks 1).state = .ready := by
  obtain ⟨m, hrun, hphase, hdied, howed⟩ := exists_run
    (P := fun m : Ledger => m.loop.phase = .top ∧ m.died = [2] ∧ m.owed = [1])
    (show (execIf Ledger.step (fun m e => EndsUnattended m.loop.sys e) (.boot blankSys [])
      childExits).any _ = true by decide +kernel)
  refine ⟨m, hrun, hdied, howed, ?_⟩
  have hwoken := (no_lost_exit blankSys [] hrun).woken hphase 1 (by rw [howed]; decide)
  rw [hdied] at hwoken
  exact hwoken.resolve_right (by decide)

/-- Process 1 forks 2 and waits for it.  Process 2 opens a file and waits for the keyboard, and the
shell kills it. -/
def childKilled : List Event :=
  launchRound ++ round [.act (.fork true true), .act (.wait4 (-1) false true)] ++
    [.next fun _ => false, .act (.openFd 5), .act (.block .kbd 0), .back,
      .poll false (fun _ _ _ => false) 0, .shellKill 2, .tick]

/-- **At the end of the iteration the parent is still blocked, and the file is still there.** -/
theorem killed_child_is_lost :
    ∃ m, Run Ledger.step (fun _ _ => True) (.boot blankSys []) childKilled m ∧
      m.loop.phase = .top ∧ m.died = [2] ∧ m.owed = [1] ∧
      (m.loop.sys.tasks 1).state = .blocked ∧ m.loop.sys.fds 5 = some 2 :=
  exists_run (P := fun m : Ledger => m.loop.phase = .top ∧ m.died = [2] ∧ m.owed = [1] ∧
    (m.loop.sys.tasks 1).state = .blocked ∧ m.loop.sys.fds 5 = some 2) (by decide +kernel)

end BananaOS.Proc
