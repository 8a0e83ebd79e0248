import BananaOS.Proc.Signal

/-!
# The main loop

The model of the main loop of `kmain.c`, which is the scheduler, the poller and the kernel shell in
one.  A round picks a ready task and, if it is a user task, gives it the CPU: its *slice* lasts until
it blocks in a system call or is unwound.  Then the loop wakes the parent of a task that has exited,
polls the keyboard, timers and signals, restarts the foreground program, runs a shell command, and
ticks.
-/

namespace BananaOS.Proc

open RingQueue GuardedRun
open Sched (TaskState WaitKind Word)

/-! ## System calls -/

/-- The system calls that touch the task table, the signals or the owners of files; the calls that
only wait are `block`, and those that only wake others are `wake`. -/
inductive Act where
  /-- `exit`, `exit_group`. -/
  | exit (wk : ℕ → WaitKind → Word → Bool) (code : ℤ)
  | kill (wk : ℕ → WaitKind → Word → Bool) (pid sig : Word)
  | fork (vm kstack : Bool)
  | wait4 (pid : Word) (nohang stored : Bool)
  /-- `wait4` goes on after a wake-up. -/
  | wait4Resume (want : ℤ) (stored : Bool)
  | block (kind : WaitKind) (arg : Word)
  | wake (p : Task → Bool)
  | rtSigaction (sig : Word) (oldOk : Bool) (act : Option (Option SigAction))
  | rtSigprocmask (how : Word) (oldOk : Bool) (set : Option (Option Word))
  | rtSigtimedwait (set : Option Word) (deadline now : ℕ)
  /-- `rt_sigtimedwait` goes on after a wake-up. -/
  | sigtimedResume (wanted : Word) (deadline now : ℕ)
  | rtSigreturn (userRsp : Word) (frame : Option SavedFrame)
  | sigaltstack (disable : Bool) (base size : Word)
  | setitimer (interval value now : ℕ)
  /-- A file is put into the empty slot `i`. -/
  | openFd (i : ℕ)
  /-- Slot `i` is closed. -/
  | closeFd (wk : ℕ → WaitKind → Word → Bool) (i : ℕ)

/-- A file is put into slot `i`, if that is empty, for the current task. -/
def openFd (s : Sys) (i : ℕ) : Sys :=
  if i < maxFds ∧ s.fds i = none then { s with fds := Function.update s.fds i (some s.currentPid) } else s

def closeFd (wk : ℕ → WaitKind → Word → Bool) (s : Sys) (i : ℕ) : Sys :=
  { wakeWhere (fun t => wk i t.waitKind t.waitArg) s with fds := Function.update s.fds i none }

/-- A system call of task `t`: whether it has switched to the main loop, and what it has done. -/
def Act.run (s : Sys) (t : ℕ) : Act → Bool × Sys
  | .exit wk code => (false, { schedMarkExited wk s t code with exitRequest := true })
  | .kill wk pid sig => (false, (sysKill wk s pid sig).2)
  | .fork vm kstack => (false, (sysFork s vm kstack).2)
  | .wait4 pid nohang stored =>
    (decide ((sysWait4 s pid nohang stored).1 = .blocked), (sysWait4 s pid nohang stored).2)
  | .wait4Resume want stored =>
    (decide ((Proc.wait4Resume s want stored).1 = .blocked), (Proc.wait4Resume s want stored).2)
  | .block kind arg => (true, schedBlockAndSwitch s kind arg)
  | .wake p => (false, wakeWhere p s)
  | .rtSigaction sig oldOk act => (false, (sysRtSigaction s sig oldOk act).2)
  | .rtSigprocmask how oldOk set => (false, (sysRtSigprocmask s how oldOk set).2)
  | .rtSigtimedwait set deadline now =>
    (decide ((sysRtSigtimedwait s set deadline now).1 = .blocked),
      (sysRtSigtimedwait s set deadline now).2)
  | .sigtimedResume wanted deadline now =>
    (decide ((sigtimedRound s t wanted deadline now).1 = .blocked),
      (sigtimedRound s t wanted deadline now).2)
  | .rtSigreturn userRsp frame => (false, (sysRtSigreturn s userRsp frame).2)
  | .sigaltstack disable base size => (false, sysSigaltstack s disable base size)
  | .setitimer interval value now => (false, sysSetitimer s interval value now)
  | .openFd i => (false, Proc.openFd s i)
  | .closeFd wk i => (false, Proc.closeFd wk s i)

/-! ## Leaving the kernel -/

/-- The end of `syscall_entry`: whether it takes `.Lreturn_to_kernel`, and the flags it leaves.  The
restore request is served before the delivery request. -/
def syscallEnd (s : Sys) (userRsp : Word) (writable : Bool) : Bool × Sys :=
  let s₁ := signalCheckDeliver s userRsp writable
  if s₁.exitRequest then (true, { s₁ with exitRequest := false })
  else if s₁.sig.restoreRequest then
    (false, { s₁ with sig := { s₁.sig with restoreRequest := false } })
  else if s₁.sig.request then (false, { s₁ with sig := { s₁.sig with request := false } })
  else (false, s₁)

def excKillUser (wk : ℕ → WaitKind → Word → Bool) (s : Sys) (t sig : ℕ) (faultRsp : Word)
    (writable : Bool) : Sys :=
  match signalDeliverNow s sig faultRsp writable with
  | (true, s') => s'
  | (false, s') => { schedMarkExited wk s' t sig with exitRequest := true }

/-- `.Luser` of `idt.S`: whether it unwinds to the main loop, and the flags it leaves. -/
def userFault (wk : ℕ → WaitKind → Word → Bool) (s : Sys) (t sig : ℕ) (faultRsp : Word)
    (writable : Bool) : Bool × Sys :=
  let s₁ := excKillUser wk s t sig faultRsp writable
  if s₁.sig.request then (false, { s₁ with sig := { s₁.sig with request := false } })
  else (true, { s₁ with exitRequest := false })

/-! ## The loop -/

inductive Phase where
  /-- Before `sched_next`. -/
  | top
  /-- User task `t` has the CPU. -/
  | slice (t : ℕ)
  /-- The CPU is back from task `t`. -/
  | back (t : ℕ)
  /-- Before the polling. -/
  | polls
  /-- The foreground program and the shell. -/
  | console
  deriving DecidableEq

structure Loop where
  sys : Sys
  phase : Phase

inductive Event where
  /-- `sched_next` and the dispatch; a kernel task's function may wake tasks by a doorbell. -/
  | next (doorbell : Task → Bool)
  | act (a : Act)
  /-- A system call ends. -/
  | sysret (userRsp : Word) (writable : Bool)
  /-- An exception in user mode, mapped to `sig`. -/
  | fault (wk : ℕ → WaitKind → Word → Bool) (sig : ℕ) (faultRsp : Word) (writable : Bool)
  /-- What the loop does after a slice. -/
  | back
  | poll (key : Bool) (wk : ℕ → WaitKind → Word → Bool) (now : ℕ)
  /-- The foreground program has ended and is reaped. -/
  | reapForeground (pid : ℕ)
  /-- A program is started, for the login loop or by the shell. -/
  | launch (kstack : Bool)
  /-- The shell's `kill`. -/
  | shellKill (id : ℤ)
  | netPoll
  | tick

/-- The first part of a round: a user task is started or switched to, any other task is run here and
put back. -/
def dispatch (s : Sys) (doorbell : Task → Bool) : Loop :=
  match schedNext s with
  | (none, s') => ⟨s', .polls⟩
  | (some id, s') =>
    match schedGetTask s' id with
    | none => ⟨s', .polls⟩
    | some t =>
      if (s'.tasks t).isUser then
        let s₁ : Sys := { s' with currentTask := some t }
        ⟨if (s'.tasks t).kctxValid then schedAfterSwitch s₁ t else s₁, .slice t⟩
      else if (s'.tasks t).hasFunc then ⟨schedRequeue (wakeWhere doorbell s') t, .polls⟩
      else ⟨schedRequeue s' t, .polls⟩

def afterSlice (s : Sys) (t : ℕ) : Sys :=
  if (s.tasks t).state = .blocked then s
  else if (s.tasks t).state = .zombie then
    { schedWakeWaitingParent t s with currentTask := none }
  else s

def pollKey (s : Sys) (key : Bool) : Sys :=
  if key then schedWakeSelectAll (schedWakeKbdAll s) else s

def pollAll (s : Sys) (key : Bool) (wk : ℕ → WaitKind → Word → Bool) (now : ℕ) : Sys :=
  schedPollSignals (schedPollTimeouts wk now (pollKey s key))

def shellKill (s : Sys) (id : ℤ) : Sys :=
  match schedGetTask s id with
  | some t => schedKill s t
  | none => s

def Phase.after (t : ℕ) (left : Bool) : Phase := if left then .back t else .slice t

def Loop.step (l : Loop) (e : Event) : Option Loop :=
  match l.phase, e with
  | .top, .next doorbell => some (dispatch l.sys doorbell)
  | .slice t, .act a =>
    if (l.sys.tasks t).state = .running then
      some ⟨(a.run l.sys t).2, .after t (a.run l.sys t).1⟩
    else none
  | .slice t, .sysret userRsp writable =>
    some ⟨(syscallEnd l.sys userRsp writable).2, .after t (syscallEnd l.sys userRsp writable).1⟩
  | .slice t, .fault wk sig faultRsp writable =>
    if (l.sys.tasks t).state = .running then
      some ⟨(userFault wk l.sys t sig faultRsp writable).2,
        .after t (userFault wk l.sys t sig faultRsp writable).1⟩
    else none
  | .back t, .back => some ⟨afterSlice l.sys t, .polls⟩
  | .polls, .poll key wk now => some ⟨pollAll l.sys key wk now, .console⟩
  | .console, .reapForeground pid => some ⟨schedForceReap l.sys pid, .console⟩
  | .console, .launch kstack => some ⟨(schedSpawnProcess l.sys kstack).2, .console⟩
  | .console, .shellKill id => some ⟨shellKill l.sys id, .console⟩
  | .console, .netPoll => some ⟨schedWakeCond .net 0 l.sys, .console⟩
  | .console, .tick => some ⟨schedTick l.sys, .top⟩
  | _, _ => none

/-- A task that `kmain` passes to `sched_add`.  It writes the name and the function; the rest is
whatever is on the stack, and only the fields that say that the task is no process are taken to be
zero. -/
def Task.kernel (x : Task) : Task := { x with isUser := false, pid := 0, ppid := 0 }

/-- After `sched_init`.  The table of the model goes on past the array; there it is blank. -/
def bootSys (s : Sys) : Sys :=
  { schedInit s with
    tasks := fun i => if i < maxTasks then (schedInit s).tasks i else blankTask
    sig := .zero, exitRequest := false, fds := fun _ => none }

/-- The start of the loop: `sched_init`, the tasks of the kernel, and nothing else yet. -/
def Loop.boot (s : Sys) (kernel : List Task) : Loop :=
  ⟨(kernel.map Task.kernel).foldl schedAdd (bootSys s), .top⟩

inductive LoopStep : Loop → Event → Loop → Prop
  | next (s doorbell) : LoopStep ⟨s, .top⟩ (.next doorbell) (dispatch s doorbell)
  | act (s t a) (h : (s.tasks t).state = .running) :
      LoopStep ⟨s, .slice t⟩ (.act a) ⟨(a.run s t).2, .after t (a.run s t).1⟩
  | sysret (s t userRsp writable) : LoopStep ⟨s, .slice t⟩ (.sysret userRsp writable)
      ⟨(syscallEnd s userRsp writable).2, .after t (syscallEnd s userRsp writable).1⟩
  | fault (s t wk sig faultRsp writable) (h : (s.tasks t).state = .running) :
      LoopStep ⟨s, .slice t⟩ (.fault wk sig faultRsp writable)
        ⟨(userFault wk s t sig faultRsp writable).2,
          .after t (userFault wk s t sig faultRsp writable).1⟩
  | back (s t) : LoopStep ⟨s, .back t⟩ .back ⟨afterSlice s t, .polls⟩
  | poll (s key wk now) : LoopStep ⟨s, .polls⟩ (.poll key wk now) ⟨pollAll s key wk now, .console⟩
  | reapForeground (s pid) :
      LoopStep ⟨s, .console⟩ (.reapForeground pid) ⟨schedForceReap s pid, .console⟩
  | launch (s kstack) :
      LoopStep ⟨s, .console⟩ (.launch kstack) ⟨(schedSpawnProcess s kstack).2, .console⟩
  | shellKill (s id) : LoopStep ⟨s, .console⟩ (.shellKill id) ⟨shellKill s id, .console⟩
  | netPoll (s) : LoopStep ⟨s, .console⟩ .netPoll ⟨schedWakeCond .net 0 s, .console⟩
  | tick (s) : LoopStep ⟨s, .console⟩ .tick ⟨schedTick s, .top⟩

theorem Loop.step_cases {l l' : Loop} {e : Event} (h : l.step e = some l') : LoopStep l e l' := by
  obtain ⟨s, phase⟩ := l
  unfold Loop.step at h
  cases phase <;> cases e <;> dsimp only at h <;> try cases h
  case top.next.refl => exact .next s _
  case slice.act t a =>
    obtain ⟨hr, ⟨⟩⟩ := Option.ite_none_right_eq_some.mp h
    exact .act s t a hr
  case slice.fault t wk sig rsp w =>
    obtain ⟨hr, ⟨⟩⟩ := Option.ite_none_right_eq_some.mp h
    exact .fault s t wk sig rsp w hr
  all_goals constructor

/-! ## Rounds -/

/-- A round in which the task that is picked does this, and is then back in the loop. -/
def round (es : List Event) : List Event :=
  [.next fun _ => false] ++ es ++ [.back, .poll false (fun _ _ _ => false) 0, .tick]

def launchRound : List Event :=
  [.next fun _ => false, .poll false (fun _ _ _ => false) 0, .launch true, .tick]

def exits : List Event := [.act (.exit (fun _ _ _ => false) 0), .sysret 0 true]

end BananaOS.Proc
