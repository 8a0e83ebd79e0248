import BananaOS.Proc.LoopInvariant

/-!
# One flag for the handlers of all tasks

`syscall_sig_active` says that a handler is running: it is set when a delivery is set up and cleared
by `rt_sigreturn`, and while it is set no signal is delivered, neither at the end of a system call
nor at a fault.  It does not say whose handler.  The flag is also cleared by
`signal_globals_reset`, which every fork, exec, exit and kill calls, of whatever task.
-/

namespace BananaOS.Proc

open RingQueue GuardedRun
open Sched (TaskState WaitKind Word)

/-! ## `execve` -/

/-- What a successful `sys_execve` does to the signals: the handlers, masks and pending signals of
`current_task`, and the globals. -/
def sysExecve (s : Sys) : Sys :=
  match s.currentTask with
  | none => s
  | some t =>
    (s.modifyTask t fun x =>
      { x with
        sigHandler := fun _ => 0, sigFlags := fun _ => 0, sigRestorer := fun _ => 0
        sigPending := 0, sigBlocked := 0 }).signalGlobalsReset

inductive TaskEvent where
  | loop (e : Event)
  | exec

/-- `execve` of the task that has the CPU, to its end: nothing is pending, so the only request that
comes before the exec request is the exit request. -/
def Loop.exec (l : Loop) : Option Loop :=
  match l.phase with
  | .slice t =>
    if (l.sys.tasks t).state = .running then
      some ⟨{ sysExecve l.sys with exitRequest := false }, .after t (sysExecve l.sys).exitRequest⟩
    else none
  | _ => none

def Loop.taskStep (l : Loop) : TaskEvent → Option Loop
  | .loop e => l.step e
  | .exec => l.exec

variable {e : TaskEvent}

theorem edited_sysExecve {s : Sys} {t : ℕ} (hc : s.currentTask = some t) :
    Edited s (sysExecve s) t := by
  simp only [sysExecve, hc]
  exact (edited_modifyTask s t rfl rfl).withSig .zero

theorem LoopInv.taskStep {l l' : Loop} (hi : LoopInv l)
    (h : l.taskStep e = some l') : LoopInv l' := by
  cases e with
  | loop e => exact hi.step h
  | exec =>
    obtain ⟨s, phase⟩ := l
    cases phase with
    | slice t =>
      simp only [Loop.taskStep, Loop.exec] at h
      split_ifs at h with hr
      cases h
      have hc := hi.slice t rfl
      have hedit := edited_sysExecve hc.current
      refine ⟨hi.table.step (.steady (hedit.steady.congr rfl rfl)), fun u hu => ?_, fun u hu => ?_⟩
      · obtain ⟨hlt, huser, hcur, hreap, -⟩ := hedit.onCpu hc
        cases hx : (sysExecve s).exitRequest <;> rw [hx] at hu <;> cases hu
        refine ⟨hlt, huser, hcur, hreap, fun hz => ?_⟩
        cases (hedit.state.trans hr).symm.trans hz
      · cases hx : (sysExecve s).exitRequest <;> rw [hx] at hu <;> cases hu
        exact ⟨hedit.count ▸ hc.lt, hedit.state ▸ hc.not_reaped⟩
    | top => cases h
    | back => cases h
    | polls => cases h
    | console => cases h

/-! ## Decisions and histories -/

/-- Whether the event sets up a delivery: at the end of a system call the flag rises, at a fault
`signal_deliver_now` says so. -/
def Sys.delivers (s : Sys) : Event → Bool
  | .sysret userRsp writable =>
    !s.sig.active && (signalCheckDeliver s userRsp writable).sig.active
  | .fault _ sig faultRsp writable => (signalDeliverNow s sig faultRsp writable).1
  | _ => false

/-- Whether there is a signal to deliver to a task: at the end of a system call a pending one that
it catches and does not block, if the frame can be written; at a fault, the one of the fault. -/
def Task.catches (x : Task) : Event → Bool
  | .sysret _ writable =>
    let mask := x.sigPending &&& ~~~x.sigBlocked
    writable && decide (mask ≠ 0 ∧ lowestSig mask ≠ 0 ∧ sigIgnVal < x.sigHandler (lowestSig mask))
  | .fault _ sig _ _ =>
    decide (IsSignal sig ∧ sigIgnVal < x.sigHandler sig ∧ x.sigBlocked &&& sigBit sig = 0)
  | _ => false

inductive Mark where
  | started | entered | returned | execed
  deriving DecidableEq

def handlerRuns : List Mark → Bool
  | .entered :: _ => true
  | _ => false

structure Handlers where
  loop : Loop
  history : ℕ → List Mark

variable {h : Handlers}

/-- The marks that an event of the task on the CPU leaves in its history. -/
def Sys.marks (s : Sys) : TaskEvent → List Mark
  | .loop (.sysret userRsp writable) =>
    if s.delivers (.sysret userRsp writable) then [.entered] else []
  | .loop (.fault wk sig faultRsp writable) =>
    if s.delivers (.fault wk sig faultRsp writable) && writable then [.entered] else []
  | .loop (.act (.rtSigreturn _ (some _))) => [.returned]
  | .exec => [.execed]
  | _ => []

def Loop.startsSlot (l : Loop) : TaskEvent → Option ℕ
  | .loop e => (l.start e).map Prod.fst
  | .exec => none

def Handlers.step (h : Handlers) (e : TaskEvent) : Option Handlers :=
  (h.loop.taskStep e).map fun l =>
    ⟨l, fun u =>
      if h.loop.startsSlot e = some u then [.started]
      else if h.loop.phase = .slice u then h.loop.sys.marks e ++ h.history u
      else h.history u⟩

def Handlers.boot (s : Sys) (kernel : List Task) : Handlers := ⟨.boot s kernel, fun _ => []⟩

/-- **The decision is the task's own**: a delivery is set up exactly if there is a signal for the
task and its own handler is not running. -/
def OwnDecision (h : Handlers) : TaskEvent → Prop
  | .loop e => ∀ t, h.loop.phase = .slice t →
      h.loop.sys.delivers e = (!handlerRuns (h.history t) && (h.loop.sys.tasks t).catches e)
  | .exec => True

/-- **The condition**: where there is a signal for the task, the flag is set exactly if the task's
own handler is running. -/
def FlagIsOwn (h : Handlers) : TaskEvent → Prop
  | .loop e => ∀ t, h.loop.phase = .slice t → (h.loop.sys.tasks t).catches e = true →
      h.loop.sys.sig.active = handlerRuns (h.history t)
  | .exec => True

theorem flagIsOwn_of_slice {e : Event} {t : ℕ} (ht : h.loop.phase = .slice t) :
    FlagIsOwn h (.loop e) ↔ ((h.loop.sys.tasks t).catches e = true →
      h.loop.sys.sig.active = handlerRuns (h.history t)) := by
  refine ⟨fun hf => hf t ht, fun hf u hu => ?_⟩
  cases ht.symm.trans hu
  exact hf

theorem flagIsOwn_of_not_slice {e : Event} (hp : ∀ t, h.loop.phase ≠ .slice t) :
    FlagIsOwn h (.loop e) := fun t ht => absurd ht (hp t)

instance (h : Handlers) (e : TaskEvent) : Decidable (FlagIsOwn h e) :=
  match e with
  | .exec => .isTrue trivial
  | .loop _ =>
    match hp : h.loop.phase with
    | .slice _ => decidable_of_iff _ (flagIsOwn_of_slice hp).symm
    | .top => .isTrue (flagIsOwn_of_not_slice (by rw [hp]; nofun))
    | .back _ => .isTrue (flagIsOwn_of_not_slice (by rw [hp]; nofun))
    | .polls => .isTrue (flagIsOwn_of_not_slice (by rw [hp]; nofun))
    | .console => .isTrue (flagIsOwn_of_not_slice (by rw [hp]; nofun))

/-! ## What the code decides -/

section Decision

variable {s : Sys} {t : ℕ}

theorem active_signalSetupDelivery (s : Sys) (t sig : ℕ) (userSp : Word) (writable : Bool) :
    (signalSetupDelivery s t sig userSp writable).sig.active = (writable || s.sig.active) := by
  simp only [signalSetupDelivery]
  cases writable with
  | true => rfl
  | false =>
    rw [if_neg Bool.false_ne_true, Bool.false_or]
    split_ifs <;> rfl

theorem active_signalCheckDeliver (hc : s.currentTask = some t) (userRsp : Word)
    (writable : Bool) : (signalCheckDeliver s userRsp writable).sig.active =
      (s.sig.active || (s.tasks t).catches (.sysret userRsp writable)) := by
  simp only [signalCheckDeliver, hc, Task.catches]
  cases hact : s.sig.active with
  | true => rw [if_pos rfl, hact, Bool.true_or]
  | false =>
    rw [if_neg Bool.false_ne_true, Bool.false_or]
    by_cases hmask : (s.tasks t).sigPending &&& ~~~(s.tasks t).sigBlocked = 0
    · rw [if_pos hmask, hact, decide_eq_false fun h => h.1 hmask, Bool.and_false]
    rw [if_neg hmask]
    by_cases hlow : lowestSig ((s.tasks t).sigPending &&& ~~~(s.tasks t).sigBlocked) = 0
    · rw [if_pos hlow, hact, decide_eq_false fun h => h.2.1 hlow, Bool.and_false]
    rw [if_neg hlow]
    by_cases hh : (s.tasks t).sigHandler
        (lowestSig ((s.tasks t).sigPending &&& ~~~(s.tasks t).sigBlocked)) ≤ sigIgnVal
    · rw [if_pos hh, hact, decide_eq_false fun h => BitVec.not_le.mpr h.2.2 hh, Bool.and_false]
    · rw [if_neg hh, active_signalSetupDelivery, hact,
        decide_eq_true ⟨hmask, hlow, BitVec.not_le.mp hh⟩, Bool.and_true, Bool.or_false]

theorem signalDeliverNow_eq (hc : s.currentTask = some t) {sig : ℕ} {faultRsp : Word}
    {writable : Bool} (h : (signalDeliverNow s sig faultRsp writable).1 = true) :
    (signalDeliverNow s sig faultRsp writable).2 =
      signalSetupDelivery (s.modifyTask t (·.pend sig)) t sig faultRsp writable := by
  simp only [signalDeliverNow, hc] at h ⊢
  split_ifs at h ⊢ <;> first | rfl | cases h

theorem delivers_eq (hc : s.currentTask = some t) (e : Event) :
    s.delivers e = (!s.sig.active && (s.tasks t).catches e) := by
  cases e with
  | sysret userRsp writable =>
    rw [Sys.delivers, active_signalCheckDeliver hc]
    cases s.sig.active <;> rfl
  | fault wk sig faultRsp writable =>
    simp only [Sys.delivers, signalDeliverNow, hc, Task.catches]
    by_cases hs : IsSignal sig
    · rw [if_neg (not_not.mpr hs)]
      cases hact : s.sig.active with
      | true => rw [if_pos rfl, Bool.not_true, Bool.false_and]
      | false =>
        rw [if_neg Bool.false_ne_true, Bool.not_false, Bool.true_and]
        by_cases hh : (s.tasks t).sigHandler sig ≤ sigIgnVal
        · rw [if_pos hh, decide_eq_false fun h => BitVec.not_le.mpr h.2.1 hh]
        · rw [if_neg hh]
          by_cases hb : (s.tasks t).sigBlocked &&& sigBit sig = 0
          · rw [if_neg (not_not.mpr hb), decide_eq_true ⟨hs, BitVec.not_le.mp hh, hb⟩]
          · rw [if_pos hb, decide_eq_false fun h => hb h.2.2]
    · rw [if_pos hs, decide_eq_false fun h => hs h.1, Bool.and_false]
  | next | act | back | poll | reapForeground | launch | shellKill | netPoll | tick =>
    exact (Bool.and_false _).symm

end Decision

theorem ownDecision_iff (hi : LoopInv h.loop) (e : TaskEvent) :
    OwnDecision h e ↔ FlagIsOwn h e := by
  cases e with
  | exec => exact Iff.rfl
  | loop e =>
    refine forall_congr' fun t => forall_congr' fun ht => ?_
    rw [delivers_eq (hi.slice t ht).current]
    cases (h.loop.sys.tasks t).catches e
    · simp only [Bool.and_false, Bool.false_eq_true, false_imp_iff]
    · simp only [Bool.and_true, true_imp_iff, Bool.not_inj_iff]

/-! ## Who writes the flag -/

def SigMove (s s' : Sys) : Prop := s'.sig = s.sig ∨ s'.sig = .zero

section Flag

variable {s s' s'' : Sys} {t : ℕ}

theorem SigMove.trans (h : SigMove s s') (h' : SigMove s' s'') : SigMove s s'' := by
  rcases h' with h' | h'
  · rcases h with h | h
    · exact .inl (h'.trans h)
    · exact .inr (h'.trans h)
  · exact .inr h'

theorem SigMove.active (h : SigMove s s') (hact : s'.sig.active = true) : s.sig.active = true := by
  rcases h with h | h
  · rwa [h] at hact
  · rw [h] at hact
    cases hact

theorem Quiet.sigMove (h : Quiet s s') : SigMove s s' := .inl h.sig

theorem sigMove_foldl {α : Type} {f : Sys → α → Sys} (hf : ∀ s a, SigMove s (f s a))
    (l : List α) : ∀ s, SigMove s (l.foldl f s) := by
  induction l with
  | nil => exact fun _ => .inl rfl
  | cons a l ih => exact fun s => (hf s a).trans (ih (f s a))

theorem sigMove_schedKill (s : Sys) (id : ℕ) : SigMove s (schedKill s id) := by
  simp only [schedKill]
  split_ifs
  · exact .inl rfl
  · exact .inl rfl
  · exact .inr rfl
  · exact .inr rfl

theorem sigMove_killOneTask (wk : ℕ → WaitKind → Word → Bool) (s : Sys) (t sig : ℕ) :
    SigMove s (killOneTask wk s t sig) := by
  have h := killOneTask_cases wk s t sig
  generalize killOneTask wk s t sig = s' at h ⊢
  cases h with
  | exits => exact .inr (schedMarkExited_spec wk s t sig).sig
  | killed => exact sigMove_schedKill s _
  | woken => exact .inl (quiet_schedWake _ t).sig
  | pends => exact .inl rfl
  | ignored => exact .inl rfl

theorem sigMove_sysKill (wk : ℕ → WaitKind → Word → Bool) (s : Sys) (pid sig : Word) :
    SigMove s (sysKill wk s pid sig).2 := by
  have hgroup : ∀ (l : List ℕ) (r : Bool × Sys),
      SigMove r.2 (l.foldl (killRound wk (-pid.toInt) sig.toNat) r).2 := by
    intro l
    induction l with
    | nil => exact fun r => .inl rfl
    | cons i l ih =>
      intro r
      refine SigMove.trans ?_ (ih _)
      simp only [killRound]
      split
      · exact .inl rfl
      · split_ifs
        · exact sigMove_killOneTask wk r.2 _ _
        · exact .inl rfl
  simp only [sysKill]
  split_ifs
  · exact .inl rfl
  · split
    · exact .inl rfl
    · exact sigMove_killOneTask wk s _ _
  · split
    · exact sigMove_killOneTask wk s _ _
    · exact .inl rfl
  · exact hgroup _ (false, s)
  · exact hgroup _ (false, s)

theorem sig_schedSpawnProcess (s : Sys) (kstack : Bool) :
    (schedSpawnProcess s kstack).2.sig = .zero ∨ schedSpawnProcess s kstack = (none, s) := by
  simp only [schedSpawnProcess, spawnInto]
  rcases s.reusable with _ | c
  · dsimp only
    split_ifs
    · exact .inr rfl
    all_goals exact .inl rfl
  · cases kstack <;> exact .inl rfl

theorem sig_sysFork (s : Sys) (vm kstack : Bool) :
    (sysFork s vm kstack).2.sig = .zero ∨
      ((sysFork s vm kstack).2 = s ∧ (vm = true → s.currentTask ≠ none →
        (schedSpawnProcess s kstack).1 = none)) := by
  rcases hc : s.currentTask with _ | p
  · refine .inr ⟨?_, fun _ h => absurd rfl h⟩
    simp only [sysFork, hc]
  · cases vm with
    | false =>
      refine .inr ⟨?_, nofun⟩
      simp only [sysFork, hc, Bool.false_eq_true, if_false]
    | true =>
      simp only [sysFork, hc, if_true]
      rcases sig_schedSpawnProcess s kstack with hz | hnone
      · refine .inl ?_
        rcases hsp : schedSpawnProcess s kstack with ⟨_ | c, s'⟩ <;> rw [hsp] at hz <;> exact hz
      · rw [hnone]
        exact .inr ⟨rfl, fun _ _ => rfl⟩

theorem sig_schedBlockAndSwitch (s : Sys) (kind : WaitKind) (arg : Word) :
    (schedBlockAndSwitch s kind arg).sig = s.sig := by
  simp only [schedBlockAndSwitch]
  split <;> rfl

theorem sig_sigtimedRound (s : Sys) (t : ℕ) (wanted : Word) (deadline now : ℕ) :
    (sigtimedRound s t wanted deadline now).2.sig = s.sig := by
  simp only [sigtimedRound]
  split_ifs
  · rfl
  · rfl
  · rfl
  · exact sig_schedBlockAndSwitch s _ _

theorem sig_wait4Scan (s : Sys) (p : ℕ) (want : ℤ) (stored : Bool) {alive : Waited × Sys}
    (halive : alive.2.sig = s.sig) : (wait4Scan s p want stored alive).2.sig = s.sig := by
  simp only [wait4Scan]
  split
  · rfl
  · split_ifs
    · cases stored <;> rfl
    · exact halive

theorem sigMove_act (hc : s.currentTask = some t) (a : Act)
    (ha : ∀ userRsp f, a ≠ .rtSigreturn userRsp (some f)) :
    SigMove s (a.run s t).2 ∧ (a.start s t ≠ none → (a.run s t).2.sig = .zero) := by
  cases a with
  | exit wk code => exact ⟨.inr (schedMarkExited_spec wk s t code).sig, absurd rfl⟩
  | kill wk pid sig => exact ⟨sigMove_sysKill wk s pid sig, absurd rfl⟩
  | fork vm kstack =>
    rcases sig_sysFork s vm kstack with hz | ⟨heq, hnone⟩
    · exact ⟨.inr hz, fun _ => hz⟩
    · refine ⟨.inl (congrArg Sys.sig heq), fun hstart => absurd ?_ hstart⟩
      cases vm with
      | false => rfl
      | true =>
        rw [Act.start, hnone rfl (by rw [hc]; exact Option.some_ne_none t)]
        rfl
  | wait4 pid nohang stored =>
    refine ⟨.inl ?_, absurd rfl⟩
    simp only [Act.run, sysWait4, hc]
    refine sig_wait4Scan s t _ stored ?_
    cases nohang
    · exact sig_schedBlockAndSwitch s _ _
    · rfl
  | wait4Resume want stored =>
    refine ⟨.inl ?_, absurd rfl⟩
    simp only [Act.run, Proc.wait4Resume, hc]
    exact sig_wait4Scan s t want stored (sig_schedBlockAndSwitch s _ _)
  | block kind arg => exact ⟨.inl (sig_schedBlockAndSwitch s kind arg), absurd rfl⟩
  | wake p => exact ⟨(quiet_wakeWhere p s).sigMove, absurd rfl⟩
  | rtSigaction sig oldOk act =>
    refine ⟨.inl ?_, absurd rfl⟩
    simp only [Act.run, sysRtSigaction, hc]
    split_ifs
    · rfl
    · rfl
    · rfl
    · rcases act with _ | _ | a <;> rfl
  | rtSigprocmask how oldOk set =>
    refine ⟨.inl ?_, absurd rfl⟩
    simp only [Act.run, sysRtSigprocmask, hc]
    split_ifs
    · rfl
    · rcases set with _ | _ | m <;> rfl
  | rtSigtimedwait set deadline now =>
    refine ⟨.inl ?_, absurd rfl⟩
    simp only [Act.run, sysRtSigtimedwait, hc]
    rcases set with _ | set
    · rfl
    · exact sig_sigtimedRound s t _ _ _
  | sigtimedResume wanted deadline now => exact ⟨.inl (sig_sigtimedRound s t _ _ _), absurd rfl⟩
  | rtSigreturn userRsp frame =>
    rcases frame with _ | f
    · refine ⟨.inl ?_, absurd rfl⟩
      simp only [Act.run, sysRtSigreturn, hc]
    · exact absurd rfl (ha userRsp f)
  | sigaltstack disable base size =>
    refine ⟨.inl ?_, absurd rfl⟩
    simp only [Act.run, sysSigaltstack, hc]
    rfl
  | setitimer interval value now =>
    refine ⟨.inl ?_, absurd rfl⟩
    simp only [Act.run, sysSetitimer, hc]
    rfl
  | openFd i =>
    refine ⟨.inl ?_, absurd rfl⟩
    simp only [Act.run, Proc.openFd]
    split_ifs <;> rfl
  | closeFd wk i => exact ⟨.inl (quiet_wakeWhere _ s).sig, absurd rfl⟩

theorem sig_dispatch (s : Sys) (doorbell : Task → Bool) : (dispatch s doorbell).sys.sig = s.sig := by
  have hnext : (schedNext s).2.sig = s.sig := by
    rcases schedNext_cases s with ⟨t, -, hp⟩ | ⟨-, hst⟩
    · exact hp.sig
    · exact hst.sig
  have hrequeue : ∀ (s : Sys) (t : ℕ), (schedRequeue s t).sig = s.sig := by
    intro s t
    simp only [schedRequeue]
    split_ifs <;> rfl
  simp only [dispatch]
  rcases hn : schedNext s with ⟨_ | id, s₁⟩ <;> rw [hn] at hnext
  · exact hnext
  · dsimp only
    split
    · exact hnext
    · split_ifs
      · exact hnext
      · exact hnext
      · exact (hrequeue _ _).trans ((quiet_wakeWhere doorbell s₁).sig.trans hnext)
      · exact (hrequeue _ _).trans hnext

theorem sigMove_pollAll (s : Sys) (key : Bool) (wk : ℕ → WaitKind → Word → Bool) (now : ℕ) :
    SigMove s (pollAll s key wk now) := by
  have hround : ∀ s i, SigMove s (pollTimeout wk now s i) := by
    intro s i
    simp only [pollTimeout]
    split_ifs
    · exact .inl rfl
    · refine SigMove.trans ?_ (quiet_deadlineRound now _ i).sigMove
      simp only [timerRound]
      split_ifs
      · exact SigMove.trans (.inl rfl) (sigMove_killOneTask wk (s.modifyTask i Task.rearmed) i 14)
      · exact .inl rfl
  exact ((quiet_pollKey s key).sigMove.trans (sigMove_foldl hround _ _)).trans
    (quiet_wakeWhere _ _).sigMove

theorem sig_schedTick (s : Sys) : (schedTick s).sig = s.sig := by
  simp only [schedTick]
  split
  · rfl
  · split_ifs <;> rfl

theorem active_syscallEnd (s : Sys) (userRsp : Word) (writable : Bool) :
    (syscallEnd s userRsp writable).2.sig.active =
      (signalCheckDeliver s userRsp writable).sig.active := by
  simp only [syscallEnd]
  split_ifs <;> rfl

theorem active_userFault (hc : s.currentTask = some t) {wk : ℕ → WaitKind → Word → Bool} {sig : ℕ}
    {faultRsp : Word} {writable : Bool}
    (hact : (userFault wk s t sig faultRsp writable).2.sig.active = true) :
    (signalDeliverNow s sig faultRsp writable).1 = true ∧ writable = true := by
  have hexc : (excKillUser wk s t sig faultRsp writable).sig.active = true := by
    simp only [userFault] at hact
    split_ifs at hact <;> exact hact
  have hdel := delivers_eq hc (.fault wk sig faultRsp writable)
  rw [Sys.delivers] at hdel
  simp only [excKillUser] at hexc
  rcases hnow : signalDeliverNow s sig faultRsp writable with ⟨b, s'⟩
  rw [hnow] at hexc hdel
  cases b with
  | false =>
    dsimp only at hexc
    rw [(schedMarkExited_spec wk s' t sig).sig] at hexc
    cases hexc
  | true =>
    refine ⟨rfl, ?_⟩
    -- the flag was down before, so it was the delivery that raised it
    have hdown : s.sig.active = false := by
      cases hs : s.sig.active with
      | false => rfl
      | true =>
        rw [hs] at hdel
        cases hdel
    have hs' := signalDeliverNow_eq hc (congrArg Prod.fst hnow)
    rw [hnow] at hs'
    dsimp only at hexc hs'
    rw [hs', active_signalSetupDelivery, show (s.modifyTask t (·.pend sig)).sig = s.sig from rfl,
      hdown, Bool.or_false] at hexc
    exact hexc

end Flag

theorem active_taskStep {l l' : Loop} (hi : LoopInv l)
    (hstep : l.taskStep e = some l') (hact : l'.sys.sig.active = true) :
    l.startsSlot e = none ∧
      ((∃ t, l.phase = .slice t ∧ l.sys.marks e = [.entered]) ∨
        (l.sys.sig.active = true ∧ ∀ t, l.phase = .slice t → l.sys.marks e = [])) := by
  cases e with
  | exec =>
    obtain ⟨s, phase⟩ := l
    cases phase with
    | slice t =>
      simp only [Loop.taskStep, Loop.exec] at hstep
      split_ifs at hstep
      cases hstep
      have hc : s.currentTask = some t := (hi.slice t rfl).current
      simp only [sysExecve, hc] at hact
      cases hact
    | top | back | polls | console => cases hstep
  | loop e =>
    cases Loop.step_cases hstep with
    | next s doorbell =>
      rw [sig_dispatch] at hact
      exact ⟨rfl, .inr ⟨hact, nofun⟩⟩
    | act s t a hr =>
      have hc : s.currentTask = some t := (hi.slice t rfl).current
      by_cases ha : ∃ userRsp f, a = .rtSigreturn userRsp (some f)
      · obtain ⟨userRsp, f, rfl⟩ := ha
        simp only [Act.run, sysRtSigreturn, hc] at hact
        cases hact
      · obtain ⟨hmove, hstart⟩ := sigMove_act hc a fun userRsp f h => ha ⟨userRsp, f, h⟩
        have hnone : a.start s t = none := by
          by_contra hne
          rw [hstart hne] at hact
          cases hact
        refine ⟨congrArg (Option.map Prod.fst) hnone, .inr ⟨hmove.active hact, fun _ _ => ?_⟩⟩
        cases a with
        | rtSigreturn userRsp frame =>
          rcases frame with _ | f
          · rfl
          · exact absurd ⟨userRsp, f, rfl⟩ ha
        | _ => rfl
    | sysret s t userRsp writable =>
      have hc := (hi.slice t rfl).current
      rw [active_syscallEnd, active_signalCheckDeliver hc] at hact
      have hmarks : s.marks (.loop (.sysret userRsp writable)) =
          if (!s.sig.active && (s.tasks t).catches (.sysret userRsp writable)) then [.entered]
          else [] := by
        rw [← delivers_eq hc]
        rfl
      refine ⟨rfl, ?_⟩
      cases hs : s.sig.active with
      | true =>
        rw [hs] at hmarks
        exact .inr ⟨rfl, fun _ _ => hmarks⟩
      | false =>
        rw [hs, Bool.false_or] at hact
        rw [hs, hact] at hmarks
        exact .inl ⟨t, rfl, hmarks⟩
    | fault s t wk sig faultRsp writable hr =>
      have hc : s.currentTask = some t := (hi.slice t rfl).current
      obtain ⟨hnow, rfl⟩ := active_userFault hc hact
      refine ⟨rfl, .inl ⟨t, rfl, ?_⟩⟩
      simp only [Sys.marks, Sys.delivers, hnow, Bool.and_self, if_true]
    | back s t =>
      refine ⟨rfl, .inr ⟨SigMove.active (.inl ?_) hact, nofun⟩⟩
      simp only [afterSlice]
      split_ifs
      · rfl
      · exact (quiet_wakeWhere _ s).sig
      · rfl
    | poll s key wk now =>
      exact ⟨rfl, .inr ⟨(sigMove_pollAll s key wk now).active hact, nofun⟩⟩
    | reapForeground s pid =>
      refine ⟨rfl, .inr ⟨SigMove.active (.inl ?_) hact, nofun⟩⟩
      simp only [schedForceReap]
      split_ifs
      · rfl
      · split <;> rfl
    | launch s kstack =>
      rcases sig_schedSpawnProcess s kstack with hz | hnone
      · dsimp only at hact
        rw [hz] at hact
        cases hact
      · dsimp only at hact
        rw [hnone] at hact
        refine ⟨?_, .inr ⟨hact, nofun⟩⟩
        simp only [Loop.startsSlot, Loop.start, hnone, Option.map_none]
    | shellKill s id =>
      refine ⟨rfl, .inr ⟨SigMove.active ?_ hact, nofun⟩⟩
      simp only [shellKill]
      split
      · exact sigMove_schedKill s _
      · exact .inl rfl
    | netPoll s => exact ⟨rfl, .inr ⟨(quiet_wakeWhere _ s).sigMove.active hact, nofun⟩⟩
    | tick s => exact ⟨rfl, .inr ⟨SigMove.active (.inl (sig_schedTick s)) hact, nofun⟩⟩

/-! ## Whole runs -/

/-- What holds in every state: a flag that is set has a running handler somewhere. -/
structure HandlersInv (h : Handlers) : Prop where
  loop : LoopInv h.loop
  flag : h.loop.sys.sig.active = true → ∃ u, handlerRuns (h.history u) = true

theorem HandlersInv.step {h' : Handlers} (hi : HandlersInv h)
    (hstep : h.step e = some h') : HandlersInv h' := by
  obtain ⟨l, hl, rfl⟩ := Option.map_eq_some_iff.mp hstep
  refine ⟨hi.loop.taskStep hl, fun hact => ?_⟩
  obtain ⟨hslot, ⟨t, ht, hmarks⟩ | ⟨hold, hmarks⟩⟩ := active_taskStep hi.loop hl hact
  · refine ⟨t, ?_⟩
    simp only [hslot, ht, hmarks, reduceCtorEq, if_false, if_true]
    rfl
  · obtain ⟨u, hu⟩ := hi.flag hold
    refine ⟨u, ?_⟩
    simp only [hslot, reduceCtorEq, if_false]
    split_ifs with hphase
    · rw [hmarks u hphase]
      exact hu
    · exact hu

theorem handlersInv_boot (s : Sys) (kernel : List Task) : HandlersInv (.boot s kernel) := by
  refine ⟨loopInv_boot s kernel, fun hact => ?_⟩
  have hadd : ∀ (l : List Task) (s₀ : Sys), (l.foldl schedAdd s₀).sig = s₀.sig := by
    intro l
    induction l with
    | nil => exact fun _ => rfl
    | cons x l ih =>
      intro s₀
      refine (ih _).trans ?_
      simp only [schedAdd]
      split_ifs <;> rfl
  rw [Handlers.boot, Loop.boot, hadd] at hact
  cases hact

section Runs

variable {s : Sys} {kernel : List Task} {es : List TaskEvent} {h : Handlers}

theorem handlersInv_of_run (hrun : Run Handlers.step (fun _ _ => True) (.boot s kernel) es h) :
    HandlersInv h :=
  hrun.invariant (fun _ _ _ hi _ hstep => hi.step hstep) (handlersInv_boot s kernel)

/-- **The decisions of a run are the tasks' own exactly if** the flag agrees with the history of the
task wherever there is a signal for it.  While no handler runs in any task, the flag is down. -/
theorem delivery_is_own_iff
    (hrun : Run Handlers.step (fun _ _ => True) (.boot s kernel) es h) :
    (Run Handlers.step OwnDecision (.boot s kernel) es h ↔
      Run Handlers.step FlagIsOwn (.boot s kernel) es h) ∧
    ((∀ u, handlerRuns (h.history u) = false) → h.loop.sys.sig.active = false) := by
  constructor
  · have hkeep : ∀ h₀ e h₁, HandlersInv h₀ → Handlers.step h₀ e = some h₁ → HandlersInv h₁ :=
      fun _ _ _ hi hstep => hi.step hstep
    exact ⟨fun hr => hr.imp_of_invariant hkeep (fun _ e hi => (ownDecision_iff hi.loop e).mp)
        (handlersInv_boot s kernel),
      fun hr => hr.imp_of_invariant hkeep (fun _ e hi => (ownDecision_iff hi.loop e).mpr)
        (handlersInv_boot s kernel)⟩
  · intro hnone
    by_contra hact
    obtain ⟨u, hu⟩ := (handlersInv_of_run hrun).flag (Bool.eq_true_of_not_eq_false hact)
    rw [hnone u] at hu
    cases hu

end Runs

def wakesNone : ℕ → WaitKind → Word → Bool := fun _ _ _ => false

def launchAndRun (programs : ℕ) : List Event :=
  [.next fun _ => false, .poll false wakesNone 0] ++ List.replicate programs (.launch true) ++
    [.tick, .next fun _ => false]

/-- The task installs a handler for signal `sig` and sends it to itself. -/
def signalsItself (sig : Word) : List Event :=
  [.act (.rtSigaction sig true (some (some ⟨0x401000, 0, 0⟩))), .sysret 0 true,
    .act (.kill wakesNone 0 sig)]

/-- The task blocks and the next one gets the CPU; a key is pressed or not. -/
def blocksAndNext (key : Bool) : List Event :=
  [.act (.block .kbd 0), .back, .poll key wakesNone 0, .tick, .next fun _ => false]

/-- A program enters its handler, is sent the signal again while it runs, and returns. -/
def oneHandler : List TaskEvent :=
  List.map .loop (launchAndRun 1 ++ signalsItself 10 ++ [.sysret 0 true,
    .act (.kill wakesNone 0 10), .sysret 0 true, .act (.rtSigreturn 0 (some ⟨10, .zero⟩)),
    .sysret 0 true])

theorem delivery_is_own_oneHandler :
    ∃ h, Run Handlers.step OwnDecision (.boot blankSys []) oneHandler h ∧
      h.history 1 = [.returned, .entered, .started] := by
  obtain ⟨h, hrun, hhist⟩ : ∃ h, Run Handlers.step FlagIsOwn (.boot blankSys []) oneHandler h ∧
      h.history 1 = [.returned, .entered, .started] := exists_run (by decide +kernel)
  exact ⟨h, (delivery_is_own_iff (hrun.mono fun _ _ _ => trivial)).1.mpr hrun, hhist⟩

/-- Program 1 blocks in its handler; program 2 sends itself a signal that it catches. -/
def twoHandlersRun : List TaskEvent :=
  List.map .loop (launchAndRun 2 ++ signalsItself 10 ++ [.sysret 0 true] ++ blocksAndNext false ++
    signalsItself 10)

/-- Program 1, which also catches `SIGSEGV`, blocks in its handler; program 2 exits; program 1 goes
on in its handler. -/
def exitInBetween : List TaskEvent :=
  List.map .loop (launchAndRun 2 ++
    [.act (.rtSigaction 11 true (some (some ⟨0x402000, 0, 0⟩))), .sysret 0 true] ++
    signalsItself 10 ++ [.sysret 0 true] ++ blocksAndNext false ++
    [.act (.exit wakesNone 0), .sysret 0 true, .back, .poll true wakesNone 0, .tick,
      .next fun _ => false])

/-- **Two ways in which a decision is not the task's own.**  The handler of program 1 suppresses the
delivery to program 2, which has no handler running.  The exit of program 2 lets a fault in the
handler of program 1 be delivered to it again. -/
theorem delivery_depends_on_others :
    (∃ h, Run Handlers.step (fun _ _ => True) (.boot blankSys []) twoHandlersRun h ∧
      h.loop.phase = .slice 2 ∧ handlerRuns (h.history 2) = false ∧
      (h.loop.sys.tasks 2).catches (.sysret 0 true) = true ∧
      h.loop.sys.delivers (.sysret 0 true) = false) ∧
    ∃ h, Run Handlers.step (fun _ _ => True) (.boot blankSys []) exitInBetween h ∧
      h.loop.phase = .slice 1 ∧ handlerRuns (h.history 1) = true ∧
      h.loop.sys.delivers (.fault wakesNone 11 0 true) = true :=
  ⟨exists_run (by decide +kernel), exists_run (by decide +kernel)⟩

end BananaOS.Proc
