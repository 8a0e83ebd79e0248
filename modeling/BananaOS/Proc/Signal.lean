import BananaOS.Proc.Effects

/-!
# Signals

The model of `signal.c` on the task table, with `rt_sigtimedwait` of `table.c`: masks and handlers,
`kill` in its four forms, and the check for a deliverable signal at the end of a system call.  What
the user's memory answers (whether a frame can be written, what a structure passed by pointer holds)
is an argument.
-/

namespace BananaOS.Proc

open Function RingQueue GuardedRun
open Sched (TaskState WaitKind Word UserRegs)

/-! ## Delivery -/

def saRestorer : Word := 0x04000000

def saOnstack : Word := 0x08000000

def sigRestorerAddr : Word := 0x600000000000

def sigframeSize : Word := 144

def lowestSig (mask : Word) : ℕ :=
  ((List.range' 1 63).find? fun i => decide (mask &&& sigBit i ≠ 0)).getD 0

def Task.usesAltstack (x : Task) (sig : ℕ) : Prop :=
  x.sigFlags sig &&& saOnstack ≠ 0 ∧ 0 < x.altstackSize ∧ x.altstackOnstack = false

instance (x : Task) (sig : ℕ) : Decidable (x.usesAltstack sig) :=
  inferInstanceAs (Decidable (_ ∧ _))

/-- Where `signal_setup_delivery` puts the frame. -/
def Task.frameAddr (x : Task) (sig : ℕ) (userSp : Word) : Word :=
  if x.usesAltstack sig then (x.altstackBase + x.altstackSize - sigframeSize) &&& ~~~0xF#64
  else (userSp - sigframeSize) &&& ~~~0xF#64

def Task.restorerFor (x : Task) (sig : ℕ) : Word :=
  if x.sigFlags sig &&& saRestorer ≠ 0 ∧ x.sigRestorer sig ≠ 0 then x.sigRestorer sig
  else sigRestorerAddr

/-- `signal_setup_delivery`; `writable` is whether the frame can be stored at `frameAddr`. -/
def signalSetupDelivery (s : Sys) (t sig : ℕ) (userSp : Word) (writable : Bool) : Sys :=
  let x := s.tasks t
  let s₁ :=
    if x.usesAltstack sig then s.modifyTask t fun task => { task with altstackOnstack := true } else s
  if writable then
    { s₁.modifyTask t fun task => { task with sigPending := task.sigPending &&& ~~~sigBit sig } with
      sig := { s₁.sig with
        handler := x.sigHandler sig
        frameRsp := x.frameAddr sig userSp
        framePtr := x.frameAddr sig userSp
        request := true
        active := true } }
  else s₁

/-- `signal_deliver_now`: the exception path.  It reports success whether or not the frame could be
written. -/
def signalDeliverNow (s : Sys) (sig : ℕ) (faultRsp : Word) (writable : Bool) : Bool × Sys :=
  match s.currentTask with
  | none => (false, s)
  | some t =>
    if ¬ IsSignal sig then (false, s)
    else if s.sig.active then (false, s)
    else if (s.tasks t).sigHandler sig ≤ sigIgnVal then (false, s)
    else if (s.tasks t).sigBlocked &&& sigBit sig ≠ 0 then (false, s)
    else (true, signalSetupDelivery (s.modifyTask t (·.pend sig)) t sig faultRsp writable)

/-- `signal_check_deliver`: the end of a system call. -/
def signalCheckDeliver (s : Sys) (userRsp : Word) (writable : Bool) : Sys :=
  match s.currentTask with
  | none => s
  | some t =>
    if s.sig.active then s
    else
      let mask := (s.tasks t).sigPending &&& ~~~(s.tasks t).sigBlocked
      if mask = 0 then s
      else if lowestSig mask = 0 then s
      else if (s.tasks t).sigHandler (lowestSig mask) ≤ sigIgnVal then s
      else signalSetupDelivery s t (lowestSig mask) userRsp writable

/-! ## Masks and handlers -/

/-- What the task passes to `rt_sigaction`. -/
structure SigAction where
  handler : Word
  flags : Word
  restorer : Word

/-- `sys_rt_sigaction`; `oldOk` is whether the old action is not asked for or can be stored, `act` is
`none` for a null pointer and `some none` for one that cannot be read. -/
def sysRtSigaction (s : Sys) (sig : Word) (oldOk : Bool) (act : Option (Option SigAction)) :
    ℤ × Sys :=
  match s.currentTask with
  | none => (-14, s)
  | some t =>
    if sig = 0 ∨ 64 ≤ sig.toNat then (-22, s)
    else if sig.toNat = sigKill ∨ sig.toNat = sigStop then (-22, s)
    else if oldOk = false then (-14, s)
    else
      match act with
      | none => (0, s)
      | some none => (-14, s)
      | some (some a) =>
        (0, s.modifyTask t fun task =>
          { task with
            sigHandler := update task.sigHandler sig.toNat a.handler
            sigFlags := update task.sigFlags sig.toNat a.flags
            sigRestorer := update task.sigRestorer sig.toNat a.restorer })

/-- The mask after `rt_sigprocmask`. -/
def newMask (how old set : Word) : Word :=
  (if how = 0 then old ||| set else if how = 1 then old &&& ~~~set else set) &&&
    ~~~(sigBit sigKill ||| sigBit sigStop)

def sysRtSigprocmask (s : Sys) (how : Word) (oldOk : Bool) (set : Option (Option Word)) : ℤ × Sys :=
  match s.currentTask with
  | none => (-14, s)
  | some t =>
    if oldOk = false then (-14, s)
    else
      match set with
      | none => (0, s)
      | some none => (-14, s)
      | some (some m) =>
        (0, s.modifyTask t fun task => { task with sigBlocked := newMask how task.sigBlocked m })

/-- `sys_sigaltstack`, given what it has read. -/
def sysSigaltstack (s : Sys) (disable : Bool) (base size : Word) : Sys :=
  match s.currentTask with
  | none => s
  | some t => s.modifyTask t fun task =>
    if disable then { task with altstackBase := 0, altstackSize := 0 }
    else { task with altstackBase := base, altstackSize := size }

/-- `sys_setitimer`, given what it has read and the time. -/
def sysSetitimer (s : Sys) (interval value now : ℕ) : Sys :=
  match s.currentTask with
  | none => s
  | some t => s.modifyTask t fun task =>
    { task with
      itimerInterval := interval
      itimerDeadline := if value ≠ 0 then (now + value) % 2 ^ 64 else 0 }

/-- What `sys_rt_sigreturn` reads from the frame: the signal and the registers. -/
structure SavedFrame where
  signum : Word
  regs : UserRegs

/-- `sys_rt_sigreturn`; `frame` is `none` if the frame cannot be read. -/
def sysRtSigreturn (s : Sys) (userRsp : Word) (frame : Option SavedFrame) : ℤ × Sys :=
  match s.currentTask, frame with
  | some t, some f =>
    (0, { s.modifyTask t fun task =>
            { task with
              altstackOnstack :=
                if 0 < task.altstackSize ∧ task.altstackBase ≤ f.regs.rsp ∧
                  f.regs.rsp < task.altstackBase + task.altstackSize then false
                else task.altstackOnstack
              sigPending :=
                if 0 < f.signum ∧ f.signum < 64 then task.sigPending &&& ~~~sigBit f.signum.toNat
                else task.sigPending } with
          sig := { s.sig with
            framePtr := userRsp - 8
            restoreRip := f.regs.rip
            restoreRflags := f.regs.rflags
            restoreRequest := true
            active := false } })
  | _, _ => (-14, s)

/-! ## Sending and waiting -/

def schedGetTask (s : Sys) (id : ℤ) : Option ℕ :=
  if id < 0 ∨ s.taskCount ≤ id then none
  else if (s.tasks id.toNat).state = .zombie then none
  else if (s.tasks id.toNat).state = .reaped then none
  else some id.toNat

/-- The task `sys_kill` sends to when its argument is positive. -/
def killTarget (s : Sys) (pid : Word) : Option ℕ :=
  match s.currentTask with
  | some c =>
    if pid.toInt = (s.tasks c).pid then some c else schedGetTask s (pid.setWidth 32).toInt
  | none => schedGetTask s (pid.setWidth 32).toInt

/-- The test of the group loop of `sys_kill`. -/
def Task.inGroup (x : Task) (pgid : ℤ) : Prop := pgid = 1 ∨ (x.pid : ℤ) = pgid ∨ (x.ppid : ℤ) = pgid

instance (x : Task) (pgid : ℤ) : Decidable (x.inGroup pgid) := inferInstanceAs (Decidable (_ ∨ _))

def killRound (wk : ℕ → WaitKind → Word → Bool) (pgid : ℤ) (sig : ℕ) (r : Bool × Sys) (i : ℕ) :
    Bool × Sys :=
  match schedGetTask r.2 i with
  | none => r
  | some t => if (r.2.tasks t).inGroup pgid then (true, killOneTask wk r.2 t sig) else r

def sysKill (wk : ℕ → WaitKind → Word → Bool) (s : Sys) (pid sig : Word) : ℤ × Sys :=
  if 64 ≤ sig.toNat then (-22, s)
  else if 0 < pid.toInt then
    match killTarget s pid with
    | none => (-3, s)
    | some t => (0, killOneTask wk s t sig.toNat)
  else if pid.toInt = 0 then
    match s.currentTask with
    | some t => (0, killOneTask wk s t sig.toNat)
    | none => (0, s)
  else
    let r := (List.range s.taskCount).foldl (killRound wk (-pid.toInt) sig.toNat) (false, s)
    (if r.1 then 0 else -3, r.2)

/-- One round of the loop of `sys_rt_sigtimedwait`, for task `t`. -/
def sigtimedRound (s : Sys) (t : ℕ) (wanted : Word) (deadline now : ℕ) : Waited × Sys :=
  let m := (s.tasks t).sigPending &&& wanted
  if m ≠ 0 then
    (.done (lowestSig m), s.modifyTask t fun task =>
      { task with sigPending := task.sigPending &&& ~~~sigBit (lowestSig m) })
  else if deadline ≤ now then (.done (-11), s)
  else if (s.tasks t).sigPending &&& ~~~(s.tasks t).sigBlocked ≠ 0 then (.done (-4), s)
  else (.blocked, schedBlockAndSwitch s .sigtimed (BitVec.ofNat 64 deadline))

/-- The signals `sys_rt_sigtimedwait` waits for.  The comment on the second line of the source says
that the set counts as unblocked while it waits; the line takes the blocked ones out. -/
def sigtimedWanted (x : Task) (set : Word) : Word :=
  set &&& ~~~(sigBit 9 ||| sigBit 19) &&& ~~~x.sigBlocked

/-- `sys_rt_sigtimedwait`, up to its return or its first `sched_block_and_switch`; `set` is `none` if
it cannot be read. -/
def sysRtSigtimedwait (s : Sys) (set : Option Word) (deadline now : ℕ) : Waited × Sys :=
  match s.currentTask with
  | none => (.done (-14), s)
  | some t =>
    match set with
    | none => (.done (-14), s)
    | some set => sigtimedRound s t (sigtimedWanted (s.tasks t) set) deadline now

/-! ## A signal that the task blocks -/

def Pending (s : Sys) (t n : ℕ) : Prop := (s.tasks t).sigPending &&& sigBit n ≠ 0

def Blocks (s : Sys) (t n : ℕ) : Prop := (s.tasks t).sigBlocked &&& sigBit n ≠ 0

/-- `sys_kill` with this argument sends to task `t`. -/
def KillReaches (s : Sys) (pid : Word) (t : ℕ) : Prop :=
  (0 < pid.toInt ∧ killTarget s pid = some t) ∨ (pid.toInt = 0 ∧ s.currentTask = some t) ∨
    (pid.toInt < 0 ∧ (s.tasks t).inGroup (-pid.toInt))

/-- Signal `n` has been sent to task `t`: by `kill`, in whatever form and by whatever task `c`, or by
its timer. -/
inductive Sent (s : Sys) (t n : ℕ) : Sys → Prop
  | kill (wk : ℕ → WaitKind → Word → Bool) (c : Option ℕ) (pid : Word)
      (h : KillReaches { s with currentTask := c } pid t) :
      Sent s t n (sysKill wk { s with currentTask := c } pid (BitVec.ofNat 64 n)).2
  | timer (wk : ℕ → WaitKind → Word → Bool) (now : ℕ) (hn : n = 14)
      (hset : (s.tasks t).itimerDeadline ≠ 0) (hnow : (s.tasks t).itimerDeadline ≤ now) :
      Sent s t n (schedPollTimeouts wk now s)

/-- Further sends, by `kill` and by timers, and changes of masks, by any task `c`. -/
inductive SigEvent where
  | kill (wk : ℕ → WaitKind → Word → Bool) (c : Option ℕ) (pid sig : Word)
  | timers (wk : ℕ → WaitKind → Word → Bool) (now : ℕ)
  | mask (c : Option ℕ) (how : Word) (oldOk : Bool) (set : Option (Option Word))

def SigEvent.step (s : Sys) : SigEvent → Option Sys
  | .kill wk c pid sig => some (sysKill wk { s with currentTask := c } pid sig).2
  | .timers wk now => some (schedPollTimeouts wk now s)
  | .mask c how oldOk set => some (sysRtSigprocmask { s with currentTask := c } how oldOk set).2

/-- A system call of task `t` ends, and the handler it is sent to, if any, returns. -/
def sysReturn (t : ℕ) (userRsp : Word) (s : Sys) : Sys :=
  { signalCheckDeliver { s with currentTask := some t } userRsp true with sig := .zero }

/-- **What a task may expect of a signal it blocks**, from the moment it is sent. -/
structure BlockedContract (s : Sys) (t n : ℕ) : Prop where
  /-- It does not terminate the task. -/
  survives : ∀ s', Sent s t n s' → (s'.tasks t).state ≠ .zombie
  /-- It is pending. -/
  pends : ∀ s', Sent s t n s' → Pending s' t n
  /-- It stays pending as long as it stays blocked. -/
  stays : ∀ s' es s'', Sent s t n s' →
    Run SigEvent.step (fun s e => ∀ m, SigEvent.step s e = some m → Blocks m t n) s' es s'' →
      Pending s'' t n
  /-- Once unblocked it is delivered at the end of a system call, if there is a handler. -/
  delivered : ∀ s' es s'', Sent s t n s' → Run SigEvent.step (fun _ _ => True) s' es s'' →
    ¬ Blocks s'' t n → sigIgnVal < (s''.tasks t).sigHandler n → s''.sig.active = false →
      ∀ userRsp, ∃ k, ¬ Pending ((sysReturn t userRsp)^[k] s'') t n
  /-- `rt_sigtimedwait` for it returns it. -/
  waited : ∀ s', Sent s t n s' → Blocks s' t n → Pending s' t n → ∀ deadline now,
    (sysRtSigtimedwait { s' with currentTask := some t } (some (sigBit n)) deadline now).1 = .done n

/-! ### Bits -/

variable {n t : ℕ} {x y : Task} {s' s : Sys}

theorem getLsbD_sigBit (n i : ℕ) : (sigBit n).getLsbD i = decide (n < 64 ∧ n = i) := by
  rw [show sigBit n = BitVec.twoPow 64 n from rfl, BitVec.getLsbD_twoPow, Bool.decide_and]

theorem and_sigBit_ne_zero (hn : n < 64) (x : Word) : x &&& sigBit n ≠ 0 ↔ x.getLsbD n = true := by
  constructor
  · intro h
    by_contra hx
    refine h (BitVec.eq_of_getLsbD_eq fun i _ => ?_)
    rw [BitVec.getLsbD_and, getLsbD_sigBit, show (0 : Word) = 0#64 from rfl, BitVec.getLsbD_zero]
    by_cases hi : n = i
    · rw [← hi, Bool.eq_false_iff.mpr hx, Bool.false_and]
    · rw [decide_eq_false fun h => hi h.2, Bool.and_false]
  · intro hx h
    have hbit := congrArg (·.getLsbD n) h
    rw [BitVec.getLsbD_and, getLsbD_sigBit, hx, decide_eq_true ⟨hn, rfl⟩] at hbit
    exact absurd hbit (by simp)

theorem getLsbD_or_sigBit {k : ℕ} (hk : k ≠ n) (x : Word) :
    (x ||| sigBit k).getLsbD n = x.getLsbD n := by
  rw [BitVec.getLsbD_or, getLsbD_sigBit, decide_eq_false fun h => hk h.2, Bool.or_false]

/-! ### What sends leave alone -/

/-- The masks and handlers are as they were, and so is the pending bit of `n` if `n` is blocked. -/
structure SigKept (n : ℕ) (x y : Task) : Prop where
  blocked : y.sigBlocked = x.sigBlocked
  handler : y.sigHandler = x.sigHandler
  pending : x.sigBlocked.getLsbD n = true → y.sigPending.getLsbD n = x.sigPending.getLsbD n

section Kept

variable {s : Sys} {n t : ℕ}

theorem SigKept.refl (x : Task) : SigKept n x x := ⟨rfl, rfl, fun _ => rfl⟩

theorem SigKept.trans {z : Task} (h : SigKept n x y) (h' : SigKept n y z) : SigKept n x z :=
  ⟨h'.blocked.trans h.blocked, h'.handler.trans h.handler,
    fun hb => (h'.pending (h.blocked ▸ hb)).trans (h.pending hb)⟩

theorem Woken.sigKept (h : Woken x y) : SigKept n x y := by
  rw [h.eq_but]
  exact ⟨rfl, rfl, fun _ => rfl⟩

theorem sigKept_schedKill (s : Sys) (u t : ℕ) :
    SigKept n (s.tasks t) ((schedKill s u).tasks t) := by
  by_cases hk : u < s.taskCount ∧ (s.tasks u).state ≠ .zombie
  · have hspec := schedKill_spec hk.1 hk.2
    by_cases htu : t = u
    · rw [htu, hspec.self]
      exact ⟨rfl, rfl, fun _ => rfl⟩
    · rw [hspec.other t htu]
      exact .refl _
  · rw [schedKill_of_dead hk]
    exact .refl _

theorem sigKept_schedMarkExited (wk : ℕ → WaitKind → Word → Bool) (s : Sys) (u t : ℕ) (code : ℤ) :
    SigKept n (s.tasks t) ((schedMarkExited wk s u code).tasks t) := by
  have hspec := schedMarkExited_spec wk s u code
  by_cases htu : t = u
  · rw [htu, hspec.self]
    exact ⟨rfl, rfl, fun _ => rfl⟩
  · exact (hspec.other t htu).sigKept

theorem sigKept_killOneTask (hn : n < 64) (wk : ℕ → WaitKind → Word → Bool) (s : Sys) (u t k : ℕ) :
    SigKept n (s.tasks t) ((killOneTask wk s u k).tasks t) := by
  have hpend (hc : Caught (s.tasks u) k) :
      SigKept n (s.tasks t) ((s.modifyTask u (·.pend k)).tasks t) := by
    by_cases htu : t = u
    · subst htu
      rw [tasks_modifyTask_self]
      refine ⟨rfl, rfl, fun hb => getLsbD_or_sigBit (fun hk => ?_) _⟩
      subst hk
      exact (and_sigBit_ne_zero hn _).mpr hb hc.2.2.2
    · rw [tasks_modifyTask_of_ne s htu]
      exact .refl _
  have h := killOneTask_cases wk s u k
  generalize killOneTask wk s u k = s' at h ⊢
  cases h with
  | exits => exact sigKept_schedMarkExited wk s u t k
  | killed => exact sigKept_schedKill s _ t
  | woken _ hc => exact (hpend hc).trans ((quiet_schedWake _ u).tasks t).sigKept
  | pends _ hc => exact hpend hc
  | ignored => exact .refl _

theorem sigKept_foldl {σ : Type} (view : σ → Task) {f : σ → ℕ → σ}
    (hf : ∀ s j, SigKept n (view s) (view (f s j))) (l : List ℕ) :
    ∀ s, SigKept n (view s) (view (l.foldl f s)) := by
  induction l with
  | nil => exact fun s => .refl _
  | cons j l ih => exact fun s => (hf s j).trans (ih (f s j))

theorem sigKept_sysKill (hn : n < 64) (wk : ℕ → WaitKind → Word → Bool) (s : Sys) (t : ℕ)
    (pid sig : Word) : SigKept n (s.tasks t) ((sysKill wk s pid sig).2.tasks t) := by
  unfold sysKill
  split_ifs
  · exact .refl _
  · rcases killTarget s pid with _ | u
    · exact .refl _
    · exact sigKept_killOneTask hn wk s u t _
  · rcases s.currentTask with _ | u
    · exact .refl _
    · exact sigKept_killOneTask hn wk s u t _
  · refine sigKept_foldl (fun r : Bool × Sys => r.2.tasks t) (fun r j => ?_) _ (false, s)
    unfold killRound
    rcases schedGetTask r.2 j with _ | u
    · exact .refl _
    · dsimp only
      split_ifs
      · exact sigKept_killOneTask hn wk r.2 u t _
      · exact .refl _

theorem sigKept_modifyTask (s : Sys) (i t : ℕ) {f : Task → Task} (hf : ∀ x, SigKept n x (f x)) :
    SigKept n (s.tasks t) ((s.modifyTask i f).tasks t) := by
  by_cases hti : t = i
  · rw [hti, tasks_modifyTask_self]
    exact hf _
  · rw [tasks_modifyTask_of_ne s hti]
    exact .refl _

theorem sigKept_pollTimeout (hn : n < 64) (wk : ℕ → WaitKind → Word → Bool) (now : ℕ) (s : Sys)
    (i t : ℕ) : SigKept n (s.tasks t) ((pollTimeout wk now s i).tasks t) := by
  unfold pollTimeout
  split_ifs
  · exact sigKept_modifyTask s i t fun x => ⟨rfl, rfl, fun _ => rfl⟩
  · refine SigKept.trans ?_ ((quiet_deadlineRound now _ i).tasks t).sigKept
    unfold timerRound
    split_ifs
    · refine (sigKept_modifyTask s i t fun x => ?_).trans (sigKept_killOneTask hn wk _ i t _)
      exact ⟨rfl, rfl, fun _ => rfl⟩
    · exact .refl _

theorem sigKept_schedPollTimeouts (hn : n < 64) (wk : ℕ → WaitKind → Word → Bool) (now : ℕ)
    (s : Sys) (t : ℕ) : SigKept n (s.tasks t) ((schedPollTimeouts wk now s).tasks t) :=
  sigKept_foldl (fun s : Sys => s.tasks t) (fun s i => sigKept_pollTimeout hn wk now s i t) _ s

theorem Sent.sigKept (hn : n < 64) (h : Sent s t n s') : SigKept n (s.tasks t) (s'.tasks t) := by
  cases h with
  | kill wk c pid _ => exact sigKept_sysKill hn wk { s with currentTask := c } t pid _
  | timer wk now _ _ _ => exact sigKept_schedPollTimeouts hn wk now s t

end Kept

/-! ### Who is terminated -/

section Terminated

variable {s : Sys} {n t : ℕ}

structure Alive (s : Sys) (t : ℕ) : Prop where
  lt : t < s.taskCount
  not_zombie : (s.tasks t).state ≠ .zombie
  not_reaped : (s.tasks t).state ≠ .reaped

theorem schedGetTask_of_alive (h : Alive s t) : schedGetTask s t = some t := by
  unfold schedGetTask
  have hlt := h.lt
  rw [if_neg (by omega), Int.toNat_natCast, if_neg h.not_zombie, if_neg h.not_reaped]

theorem schedGetTask_eq_some {i : ℤ} (h : schedGetTask s i = some t) : Alive s t ∧ i = t := by
  unfold schedGetTask at h
  split_ifs at h with hr hz hreap
  have hi : i.toNat = t := Option.some.inj h
  subst hi
  refine ⟨⟨by omega, hz, hreap⟩, by omega⟩

theorem killOneTask_zombie_iff (hids : Ids s) (hal : Alive s t) (hn : IsSignal n)
    (wk : ℕ → WaitKind → Word → Bool) :
    ((killOneTask wk s t n).tasks t).state = .zombie ↔ Lethal (s.tasks t) n := by
  have hpend : ((s.modifyTask t (·.pend n)).tasks t).state = (s.tasks t).state := by
    rw [tasks_modifyTask_self]
    rfl
  have h := killOneTask_cases wk s t n
  generalize killOneTask wk s t n = s' at h ⊢
  cases h with
  | exits hl => exact iff_of_true (congrArg Task.state (schedMarkExited_spec wk s t n).self) hl.2
  | killed hl =>
    rw [hids t hal.lt, (schedKill_spec hal.lt hal.not_zombie).self]
    exact iff_of_true rfl hl.2
  | woken hl =>
    refine iff_of_false ?_ fun h => hl ⟨hn, h⟩
    rcases ((quiet_schedWake (s.modifyTask t (·.pend n)) t).tasks t).state with h | h
    · rw [h, hpend]
      exact hal.not_zombie
    · rw [h.2]
      exact nofun
  | pends hl => exact iff_of_false (hpend ▸ hal.not_zombie) fun h => hl ⟨hn, h⟩
  | ignored hl => exact iff_of_false hal.not_zombie fun h => hl ⟨hn, h⟩

structure Untouched (s s' : Sys) (t : ℕ) : Prop where
  ids : Ids s'
  count : s'.taskCount = s.taskCount
  task : Woken (s.tasks t) (s'.tasks t)

theorem Untouched.alive (h : Untouched s s' t) (hal : Alive s t) : Alive s' t := by
  refine ⟨h.count ▸ hal.lt, fun hz => ?_, fun hr => ?_⟩
  · rcases h.task.state with he | he
    · exact hal.not_zombie (he ▸ hz)
    · cases he.2.symm.trans hz
  · rcases h.task.state with he | he
    · exact hal.not_reaped (he ▸ hr)
    · cases he.2.symm.trans hr

theorem Woken.lethal_iff (h : Woken x y) (n : ℕ) : Lethal y n ↔ Lethal x n := by
  rw [h.eq_but]
  exact Iff.rfl

structure Decided (s s' : Sys) (t n : ℕ) : Prop where
  ids : Ids s'
  zombie_iff : (s'.tasks t).state = .zombie ↔ Lethal (s.tasks t) n

theorem Decided.of_woken {s₁ s₂ : Sys} (h : Decided s s₁ t n) (hids : Ids s₂)
    (hw : Woken (s₁.tasks t) (s₂.tasks t)) : Decided s s₂ t n := by
  refine ⟨hids, Iff.trans ?_ h.zombie_iff⟩
  rcases hw.state with he | ⟨hb, hr⟩
  · rw [he]
  · rw [hb, hr]
    exact ⟨nofun, nofun⟩

theorem Decided.kill {s₁ : Sys} (hal : Alive s t) (hn : IsSignal n) (h : Untouched s s₁ t)
    (wk : ℕ → WaitKind → Word → Bool) : Decided s (killOneTask wk s₁ t n) t n := by
  have hal₁ := h.alive hal
  refine ⟨(steady_killOneTask wk (h.ids t hal₁.lt) hal₁.not_reaped n).ids h.ids, ?_⟩
  rw [killOneTask_zombie_iff h.ids hal₁ hn, h.task.lethal_iff]

theorem decided_group (hids : Ids s) (hal : Alive s t) (hn : IsSignal n) {pgid : ℤ}
    (hg : (s.tasks t).inGroup pgid) (wk : ℕ → WaitKind → Word → Bool) :
    Decided s ((List.range s.taskCount).foldl (killRound wk pgid n) (false, s)).2 t n := by
  have hother : ∀ (r : Bool × Sys) (j : ℕ), Ids r.2 → j ≠ t →
      Woken (r.2.tasks t) ((killRound wk pgid n r j).2.tasks t) ∧
        Steady r.2 (killRound wk pgid n r j).2 := by
    intro r j hr hj
    unfold killRound
    rcases hget : schedGetTask r.2 j with _ | u
    · exact ⟨.same, .refl _⟩
    · obtain ⟨halu, hju⟩ := schedGetTask_eq_some hget
      have htu : t ≠ u := fun h => hj (by omega)
      dsimp only
      split_ifs
      · exact ⟨killOneTask_other (hr u halu.lt) htu,
          steady_killOneTask wk (hr u halu.lt) halu.not_reaped n⟩
      · exact ⟨.same, .refl _⟩
  refine foldl_visit (P := fun r : Bool × Sys => Untouched s r.2 t)
    (Q := fun r : Bool × Sys => Decided s r.2 t n) (fun r h => ?_) List.nodup_range
    (List.mem_range.mpr hal.lt) (fun r j _ hj h => ?_) (fun r j _ hj h => ?_) (false, s)
    ⟨hids, rfl, .same⟩
  · have hgroup : (r.2.tasks t).inGroup pgid := by
      rw [h.task.eq_but]
      exact hg
    unfold killRound
    rw [schedGetTask_of_alive (h.alive hal)]
    dsimp only
    rw [if_pos hgroup]
    exact Decided.kill hal hn h wk
  · obtain ⟨hw, hst⟩ := hother r j h.ids hj
    exact ⟨hst.ids h.ids, hst.count.trans h.count, h.task.trans hw⟩
  · obtain ⟨hw, hst⟩ := hother r j h.ids hj
    exact h.of_woken (hst.ids h.ids) hw

theorem pollTimeout_other (wk : ℕ → WaitKind → Word → Bool) (now : ℕ) {j : ℕ}
    (hid : (s.tasks j).id = j) (hj : j ≠ t) :
    Woken (s.tasks t) ((pollTimeout wk now s j).tasks t) := by
  unfold pollTimeout
  split_ifs
  · rw [tasks_modifyTask_of_ne s (Ne.symm hj)]
    exact .same
  · refine Woken.trans ?_ ((quiet_deadlineRound now _ j).tasks t)
    unfold timerRound
    split_ifs
    · have hsame : (s.modifyTask j Task.rearmed).tasks t = s.tasks t :=
        tasks_modifyTask_of_ne s (Ne.symm hj) _
      rw [← hsame]
      refine killOneTask_other ?_ (Ne.symm hj)
      rw [tasks_modifyTask_self]
      exact hid
    · exact .same

theorem decided_timers (hids : Ids s) (hal : Alive s t) {now : ℕ} (he : (s.tasks t).expired now)
    (wk : ℕ → WaitKind → Word → Bool) : Decided s (schedPollTimeouts wk now s) t 14 := by
  have hid : ∀ s', Ids s' → s'.taskCount = s.taskCount → ∀ j ∈ List.range s.taskCount,
      (s'.tasks j).id = j := fun s' h hcount j hj => h j (hcount ▸ List.mem_range.mp hj)
  refine And.left (b := (schedPollTimeouts wk now s).taskCount = s.taskCount) ?_
  refine foldl_visit (P := fun s' => Untouched s s' t)
    (Q := fun s' => Decided s s' t 14 ∧ s'.taskCount = s.taskCount) (fun s' h => ?_)
    List.nodup_range (List.mem_range.mpr hal.lt) (fun s' j hj hne h => ?_)
    (fun s' j hj hne h => ?_) s ⟨hids, rfl, .same⟩
  · -- the round of the task itself: `SIGALRM`, then the deadline of its wait
    have hal' := h.alive hal
    have hst := steady_pollTimeout wk now (h.ids t hal'.lt)
    have he' : (s'.tasks t).expired now := by
      rw [h.task.eq_but]
      exact he
    set s₁ := s'.modifyTask t Task.rearmed with hs₁
    have htask : s₁.tasks t = (s'.tasks t).rearmed := tasks_modifyTask_self ..
    have hst₁ : Steady s' s₁ := steady_modifyTask s' t rfl Iff.rfl
    have hal₁ : Alive s₁ t := by
      refine ⟨hal'.lt, ?_, ?_⟩
      · rw [htask]
        exact hal'.not_zombie
      · rw [htask]
        exact hal'.not_reaped
    have hround : pollTimeout wk now s' t = deadlineRound now (killOneTask wk s₁ t 14) t := by
      unfold pollTimeout timerRound
      rw [if_neg fun h => h.elim hal'.not_zombie hal'.not_reaped, if_pos he']
    have hkill : Decided s (killOneTask wk s₁ t 14) t 14 := by
      have hids₁ := hst₁.ids h.ids
      refine ⟨(steady_killOneTask wk (hids₁ t hal₁.lt) hal₁.not_reaped 14).ids hids₁, ?_⟩
      rw [killOneTask_zombie_iff hids₁ hal₁ (by decide), htask, ← h.task.lethal_iff]
      exact Iff.rfl
    refine ⟨hkill.of_woken (hst.ids h.ids) ?_, hst.count.trans h.count⟩
    rw [hround]
    exact (quiet_deadlineRound now _ t).tasks t
  · have hst := steady_pollTimeout wk now (hid s' h.ids h.count j hj)
    exact ⟨hst.ids h.ids, hst.count.trans h.count,
      h.task.trans (pollTimeout_other wk now (hid s' h.ids h.count j hj) hne)⟩
  · obtain ⟨hdec, hcount⟩ := h
    have hst := steady_pollTimeout wk now (hid s' hdec.ids hcount j hj)
    exact ⟨hdec.of_woken (hst.ids hdec.ids)
      (pollTimeout_other wk now (hid s' hdec.ids hcount j hj) hne), hst.count.trans hcount⟩

theorem Sent.zombie_iff (hids : Ids s) (hal : Alive s t) (hn : IsSignal n)
    (h : Sent s t n s') : (s'.tasks t).state = .zombie ↔ Lethal (s.tasks t) n := by
  cases h with
  | kill wk c pid hreach =>
    have hal' : Alive { s with currentTask := c } t := ⟨hal.lt, hal.not_zombie, hal.not_reaped⟩
    have hids' : Ids { s with currentTask := c } := hids
    have hn64 : (BitVec.ofNat 64 n).toNat = n := by
      rw [BitVec.toNat_ofNat]
      exact Nat.mod_eq_of_lt (lt_trans hn.2 (by decide))
    unfold sysKill
    rw [hn64, if_neg (Nat.not_le.mpr hn.2)]
    rcases hreach with ⟨hpos, htarget⟩ | ⟨hzero, hcur⟩ | ⟨hneg, hgroup⟩
    · rw [if_pos hpos, htarget]
      exact killOneTask_zombie_iff hids' hal' hn wk
    · rw [if_neg (by omega), if_pos hzero, hcur]
      exact killOneTask_zombie_iff hids' hal' hn wk
    · rw [if_neg (by omega), if_neg (by omega)]
      exact (decided_group hids' hal' hn hgroup wk).zombie_iff
  | timer wk now hn14 hset hnow =>
    subst hn14
    exact (decided_timers hids hal ⟨hset, hnow⟩ wk).zombie_iff

end Terminated

/-! ### What `rt_sigtimedwait` returns -/

theorem lowestSig_mem {m : Word} (h : lowestSig m = n) (hn : 0 < n) :
    n < 64 ∧ m &&& sigBit n ≠ 0 := by
  unfold lowestSig at h
  rcases hf : (List.range' 1 63).find? fun i => decide (m &&& sigBit i ≠ 0) with _ | i
  · rw [hf] at h
    exact absurd h (Nat.ne_of_lt hn)
  · rw [hf] at h
    have hi : i = n := h
    subst hi
    have hmem := List.mem_range'_1.mp (List.mem_of_find?_eq_some hf)
    have hbit := List.find?_some hf
    rw [decide_eq_true_eq] at hbit
    exact ⟨by omega, hbit⟩

theorem sigtimedRound_ne (s : Sys) (hn : IsSignal n) {wanted : Word}
    (hw : wanted &&& sigBit n = 0) (deadline now : ℕ) :
    (sigtimedRound s t wanted deadline now).1 ≠ .done n := by
  have herr : ∀ e : ℤ, e < 0 → Waited.done e ≠ .done n := fun e he => done_error_ne he n
  unfold sigtimedRound
  dsimp only
  split_ifs with hm
  · intro h
    have hlow : lowestSig ((s.tasks t).sigPending &&& wanted) = n :=
      Int.natCast_inj.mp (Waited.done.inj h)
    have hbit := (lowestSig_mem hlow hn.1).2
    rw [BitVec.and_assoc, hw] at hbit
    simp at hbit
  · exact herr _ (by decide)
  · exact herr _ (by decide)
  · exact nofun

theorem sysRtSigtimedwait_ne (hn : IsSignal n) (hb : Blocks s t n)
    (hc : s.currentTask = some t) (set : Option Word) (deadline now : ℕ) :
    (sysRtSigtimedwait s set deadline now).1 ≠ .done n := by
  unfold sysRtSigtimedwait
  rw [hc]
  rcases set with _ | set
  · exact done_error_ne (by decide) n
  · refine sigtimedRound_ne s hn ?_ deadline now
    by_contra hw
    rw [← ne_eq, and_sigBit_ne_zero hn.2] at hw
    have hblk := (and_sigBit_ne_zero hn.2 _).mp hb
    simp [sigtimedWanted, hblk] at hw

/-! ### The contract -/

theorem sigPending_sysRtSigprocmask (s : Sys) (how : Word) (oldOk : Bool)
    (set : Option (Option Word)) (t : ℕ) :
    ((sysRtSigprocmask s how oldOk set).2.tasks t).sigPending = (s.tasks t).sigPending := by
  unfold sysRtSigprocmask
  rcases s.currentTask with _ | c
  · rfl
  · dsimp only
    split_ifs
    · rfl
    · rcases set with _ | _ | m
      · rfl
      · rfl
      · dsimp only
        by_cases htc : t = c
        · rw [htc, tasks_modifyTask_self]
        · rw [tasks_modifyTask_of_ne s htc]

theorem pending_stays {es : List SigEvent} (hn : IsSignal n)
    (hp : Pending s t n) (hb : Blocks s t n)
    (hrun : Run SigEvent.step (fun s e => ∀ m, SigEvent.step s e = some m → Blocks m t n) s es s') :
    Pending s' t n := by
  have hinv : Pending s' t n ∧ Blocks s' t n := by
    refine hrun.invariant (I := fun s => Pending s t n ∧ Blocks s t n) ?_ ⟨hp, hb⟩
    intro s e m ⟨hp, hb⟩ hok hstep
    refine ⟨?_, hok m hstep⟩
    unfold Pending Blocks at *
    rw [and_sigBit_ne_zero hn.2] at hp hb ⊢
    cases e with
    | kill wk c pid sig =>
      obtain rfl := Option.some.inj hstep
      have hkept := sigKept_sysKill (n := n) hn.2 wk { s with currentTask := c } t pid sig
      exact (hkept.pending hb).trans hp
    | timers wk now =>
      obtain rfl := Option.some.inj hstep
      exact ((sigKept_schedPollTimeouts hn.2 wk now s t).pending hb).trans hp
    | mask c how oldOk set =>
      obtain rfl := Option.some.inj hstep
      rw [sigPending_sysRtSigprocmask]
      exact hp
  exact hinv.1

/-- **Blocked signals.**  Whatever the state, a task does not have the contract for any signal it
blocks.  In detail: however it is sent, the signal terminates the task unless it is ignored; it is
pending afterwards only if it was before; while it is pending and blocked it does stay pending; and
`rt_sigtimedwait` never returns it. -/
theorem blocked_signal_contract_fails {s : Sys} {t n : ℕ} (hal : Alive s t) (hn : IsSignal n)
    (hkill : n ≠ sigKill) (hstop : n ≠ sigStop) (hb : Blocks s t n) :
    ¬ BlockedContract s t n ∧
    (Ids s → ∀ s', Sent s t n s' → ((s'.tasks t).state = .zombie ↔
      (s.tasks t).sigHandler n ≠ sigIgnVal ∧ ¬ IgnoredByDefault n)) ∧
    (∀ s', Sent s t n s' → (Pending s' t n ↔ Pending s t n)) ∧
    (∀ s' es s'', Pending s' t n → Blocks s' t n →
      Run SigEvent.step (fun s e => ∀ m, SigEvent.step s e = some m → Blocks m t n) s' es s'' →
        Pending s'' t n) ∧
    (∀ s', s'.currentTask = some t → Blocks s' t n → ∀ set deadline now,
      (sysRtSigtimedwait s' set deadline now).1 ≠ .done n) := by
  have hpend : ∀ s', Sent s t n s' → (Pending s' t n ↔ Pending s t n) := by
    intro s' h
    unfold Pending
    rw [and_sigBit_ne_zero hn.2, and_sigBit_ne_zero hn.2,
      (h.sigKept hn.2).pending ((and_sigBit_ne_zero hn.2 _).mp hb)]
  have hblk : ∀ s', Sent s t n s' → Blocks s' t n := by
    intro s' h
    unfold Blocks
    rw [(h.sigKept hn.2).blocked]
    exact hb
  refine ⟨fun hcon => ?_, fun hids s' h => ?_, hpend, fun s' es s'' hp hb hrun => ?_,
    fun s' hc hb set deadline now => sysRtSigtimedwait_ne hn hb hc set deadline now⟩
  · -- `kill(-1)` sends the signal: it must be pending, and then waiting for it must return it
    obtain ⟨s', hsent⟩ : ∃ s', Sent s t n s' := ⟨_, .kill (fun _ _ _ => false) none (-1)
      (.inr (.inr ⟨by decide, .inl (by decide)⟩))⟩
    exact sysRtSigtimedwait_ne (s := { s' with currentTask := some t }) hn (hblk s' hsent) rfl _ 0 0
      (hcon.waited s' hsent (hblk s' hsent) (hcon.pends s' hsent) 0 0)
  · rw [h.zombie_iff hids hal hn]
    unfold Lethal
    have hcaught : ¬ Caught (s.tasks t) n := fun hc => hb hc.2.2.2
    constructor
    · rintro (h | h)
      · exact absurd h hkill
      · exact h.2.2
    · exact fun h => .inr ⟨hstop, hcaught, h⟩
  · exact pending_stays hn hp hb hrun

def handlerForUsr1 : Sys :=
  (sysRtSigaction (schedNext (schedSpawnProcess (schedInit blankSys) true).2).2 10 true
    (some (some ⟨0x401000, 0, 0⟩))).2

def blockUsr1 (s : Sys) : Sys := (sysRtSigprocmask s 0 true (some (some (sigBit 10)))).2

def killUsr1 (s : Sys) : Sys := (sysKill (fun _ _ _ => false) s 1 10).2

theorem blocked_signal_contract_fails_usr1 : ¬ BlockedContract (blockUsr1 handlerForUsr1) 1 10 :=
  (blocked_signal_contract_fails ⟨by decide, by decide, by decide⟩ (by decide) (by decide)
    (by decide) (show _ ≠ _ by decide)).1

/-- **The process has a handler for signal 10.**  If it blocks the signal and then sends it to
itself, it is terminated and the signal is not pending; if it sends it first, the signal is pending
and blocked, and `rt_sigtimedwait` for it times out. -/
theorem blocked_signal_terminates :
    (handlerForUsr1.tasks 1).sigHandler 10 = 0x401000 ∧
      ((killUsr1 (blockUsr1 handlerForUsr1)).tasks 1).state = .zombie ∧
      ¬ Pending (killUsr1 (blockUsr1 handlerForUsr1)) 1 10 ∧
      Blocks (blockUsr1 (killUsr1 handlerForUsr1)) 1 10 ∧
      Pending (blockUsr1 (killUsr1 handlerForUsr1)) 1 10 ∧
      (sysRtSigtimedwait (blockUsr1 (killUsr1 handlerForUsr1)) (some (sigBit 10)) 5 5).1 =
        .done (-11) := by
  unfold Pending Blocks
  decide +kernel

end BananaOS.Proc
