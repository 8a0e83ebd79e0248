import BananaOS.Proc.RunQueue

/-!
# `fork` and `wait4`

`sched_find_child` walks the table from slot 0 and returns the first slot that is a child of the
caller, matches the pid argument and has not been reaped; whether that child is alive or a zombie it
does not ask.  `sys_wait4` reaps what it gets if that is a zombie, and otherwise returns 0
(`WNOHANG`) or blocks, and after each wake-up asks the same question again.
-/

namespace BananaOS.Proc

open RingQueue GuardedRun
open Sched (TaskState WaitKind Word)

/-! ## `sys_fork` -/

/-- What `sys_fork` writes to the child, besides what `sched_spawn_process` has written. -/
def Task.forked (child parent : Task) : Task :=
  { child with
    ppid := parent.pid, isFork := true, state := .ready
    altstackBase := parent.altstackBase, altstackSize := parent.altstackSize, altstackOnstack := false
    sigHandler := parent.sigHandler, sigFlags := parent.sigFlags, sigRestorer := parent.sigRestorer
    sigPending := 0, sigBlocked := parent.sigBlocked }

/-- `sys_fork`; `vm` is whether `vm_fork` returns a copy of the address space.  The result is the
value of the system call. -/
def sysFork (s : Sys) (vm kstack : Bool) : ℤ × Sys :=
  match s.currentTask with
  | none => (-22, s)
  | some p =>
    if vm then
      match schedSpawnProcess s kstack with
      | (some c, s') =>
        ((s'.tasks c).pid, s'.modifyTask c fun child => child.forked (s'.tasks p))
      | (none, s') => (-11, s')
    else (-12, s)

/-! ## `sys_wait4` -/

/-- The test in the loop of `sched_find_child`. -/
def Task.isChild (t : Task) (parentPid : ℕ) (pid : ℤ) : Bool :=
  decide (t.ppid = parentPid ∧ t.state ≠ .reaped ∧ ¬ (t.state = .zombie ∧ t.named = false) ∧
    ¬ (0 < pid ∧ (t.pid : ℤ) ≠ pid))

def schedFindChild (s : Sys) (parentPid : ℕ) (pid : ℤ) : Option ℕ :=
  (List.range s.taskCount).find? fun i => (s.tasks i).isChild parentPid pid

inductive Waited where
  /-- It returns to the caller. -/
  | done (result : ℤ)
  /-- It has called `sched_block_and_switch`. -/
  | blocked
  deriving DecidableEq, Repr

def wantOf (pid : Word) : ℤ := (pid.setWidth 32).toInt

/-- Store the status and reap; `stored` is whether `wait4_write_status` succeeds. -/
def reapChild (s : Sys) (c : ℕ) (stored : Bool) : Waited × Sys :=
  if stored then (.done (s.tasks c).pid, s.setState c .reaped) else (.done (-14), s)

/-- What `sys_wait4` does with the child that is found, at its start and after each wake-up; `alive`
is what it does with one that has not exited. -/
def wait4Scan (s : Sys) (p : ℕ) (want : ℤ) (stored : Bool) (alive : Waited × Sys) : Waited × Sys :=
  match schedFindChild s (s.tasks p).pid want with
  | none => (.done (-10), s)
  | some c => if (s.tasks c).state = .zombie then reapChild s c stored else alive

/-- `sys_wait4`, up to its return or its first `sched_block_and_switch`. -/
def sysWait4 (s : Sys) (pid : Word) (nohang stored : Bool) : Waited × Sys :=
  match s.currentTask with
  | none => (.done (-10), s)
  | some p =>
    wait4Scan s p (wantOf pid) stored
      (if nohang then (.done 0, s)
      else (.blocked, schedBlockAndSwitch s .child (BitVec.ofInt 64 (wantOf pid))))

/-- One round of its loop, when the main loop has switched back to the caller. -/
def wait4Resume (s : Sys) (want : ℤ) (stored : Bool) : Waited × Sys :=
  match s.currentTask with
  | none => (.done (-10), s)
  | some p =>
    wait4Scan s p want stored (.blocked, schedBlockAndSwitch s .child (BitVec.ofInt 64 want))

/-! ## Which child is found -/

/-- Task `c` is a child of a process with pid `parentPid` that the argument asks for and that has
exited. -/
structure ExitedChild (s : Sys) (parentPid : ℕ) (want : ℤ) (c : ℕ) : Prop where
  lt : c < s.taskCount
  ppid : (s.tasks c).ppid = parentPid
  pid : 0 < want → ((s.tasks c).pid : ℤ) = want
  state : (s.tasks c).state = .zombie

/-- Slot `c` is the first that `sched_find_child` accepts. -/
def FirstChild (s : Sys) (parentPid : ℕ) (want : ℤ) (c : ℕ) : Prop :=
  c < s.taskCount ∧ (s.tasks c).isChild parentPid want = true ∧
    ∀ i < c, (s.tasks i).isChild parentPid want = false

section Found

variable {s : Sys} {parentPid c : ℕ} {want : ℤ}

theorem schedFindChild_eq_some : schedFindChild s parentPid want = some c ↔
    FirstChild s parentPid want c := by
  unfold schedFindChild FirstChild
  rw [List.find?_range_eq_some]
  simp only [List.mem_range, Bool.not_eq_true']
  tauto

theorem FirstChild.exitedChild (h : FirstChild s parentPid want c)
    (hz : (s.tasks c).state = .zombie) : ExitedChild s parentPid want c := by
  obtain ⟨hlt, hchild, -⟩ := h
  unfold Task.isChild at hchild
  rw [decide_eq_true_eq] at hchild
  exact ⟨hlt, hchild.1, fun hw => by_contra fun hne => hchild.2.2.2 ⟨hw, hne⟩, hz⟩

theorem setState_reaped_inj {c' : ℕ} (hz : (s.tasks c).state = .zombie)
    (h : s.setState c' .reaped = s.setState c .reaped) : c' = c := by
  by_contra hne
  have hc := congrArg (fun s : Sys => (s.tasks c).state) h
  rw [tasks_setState_of_ne s (Ne.symm hne), tasks_setState_self, hz] at hc
  cases hc

theorem setState_reaped_ne (hz : (s.tasks c).state = .zombie) : s ≠ s.setState c .reaped := by
  intro h
  have hc := congrArg (fun s : Sys => (s.tasks c).state) h
  rw [tasks_setState_self, hz] at hc
  cases hc

theorem done_error_ne {e : ℤ} (he : e < 0) (n : ℕ) : Waited.done e ≠ .done n := by
  intro h
  have := Waited.done.inj h
  omega

theorem reapChild_eq_iff {c' : ℕ} {stored : Bool} (hz : (s.tasks c).state = .zombie) :
    reapChild s c' stored = (.done (s.tasks c).pid, s.setState c .reaped) ↔
      stored = true ∧ c' = c := by
  unfold reapChild
  cases stored with
  | true =>
    rw [if_pos rfl]
    refine ⟨fun h => ⟨rfl, setState_reaped_inj hz (congrArg Prod.snd h)⟩, ?_⟩
    rintro ⟨-, rfl⟩
    rfl
  | false =>
    rw [if_neg Bool.false_ne_true]
    refine ⟨fun h => absurd (congrArg Prod.fst h) (done_error_ne (by decide) _), ?_⟩
    rintro ⟨h, -⟩
    cases h

end Found

/-! ## The result of `wait4` -/

section Result

variable {s : Sys} {p : ℕ}

theorem wait4Scan_reaps_iff {want : ℤ} (stored : Bool) {alive : Waited × Sys} {z : ℕ}
    (hz : ExitedChild s (s.tasks p).pid want z)
    (halive : alive ≠ (.done (s.tasks z).pid, s.setState z .reaped)) :
    wait4Scan s p want stored alive = (.done (s.tasks z).pid, s.setState z .reaped) ↔
      stored = true ∧ FirstChild s (s.tasks p).pid want z := by
  unfold wait4Scan
  rw [← schedFindChild_eq_some]
  rcases schedFindChild s (s.tasks p).pid want with _ | c
  · exact ⟨fun h => absurd (congrArg Prod.fst h) (done_error_ne (by decide) _), nofun⟩
  · by_cases hc : (s.tasks c).state = .zombie
    · simp only [if_pos hc, reapChild_eq_iff hz.state, Option.some.injEq]
    · have hne : c ≠ z := fun h => hc (h ▸ hz.state)
      simp only [if_neg hc, Option.some.injEq, hne, and_false, halive]

theorem sysWait4_reaps_iff (hp : s.currentTask = some p) (pid : Word) (nohang stored : Bool) {z : ℕ}
    (hz : ExitedChild s (s.tasks p).pid (wantOf pid) z) :
    sysWait4 s pid nohang stored = (.done (s.tasks z).pid, s.setState z .reaped) ↔
      stored = true ∧ FirstChild s (s.tasks p).pid (wantOf pid) z := by
  unfold sysWait4
  rw [hp]
  refine wait4Scan_reaps_iff stored hz ?_
  cases nohang with
  | true => exact fun h => setState_reaped_ne hz.state (congrArg Prod.snd h)
  | false => exact fun h => nomatch congrArg Prod.fst h

theorem wait4Resume_reaps_iff (hp : s.currentTask = some p) (want : ℤ) (stored : Bool) {z : ℕ}
    (hz : ExitedChild s (s.tasks p).pid want z) :
    wait4Resume s want stored = (.done (s.tasks z).pid, s.setState z .reaped) ↔
      stored = true ∧ FirstChild s (s.tasks p).pid want z := by
  unfold wait4Resume
  rw [hp]
  exact wait4Scan_reaps_iff stored hz fun h => nomatch congrArg Prod.fst h

/-- **`wait4` and exited children.**  If some child that is asked for has exited, `wait4` reaps one of
these and returns its pid, whatever `WNOHANG` says, exactly if the first child that is asked for and
not reaped has exited (and the status can be stored); and a caller that is woken in `wait4(-1)` after
the exit of `z` returns `z` exactly if `z` is that first child. -/
theorem wait4_reaps_iff (hp : s.currentTask = some p) (stored : Bool) :
    (∀ (pid : Word) (nohang : Bool), (∃ z, ExitedChild s (s.tasks p).pid (wantOf pid) z) →
      ((∃ z, ExitedChild s (s.tasks p).pid (wantOf pid) z ∧
          sysWait4 s pid nohang stored = (.done (s.tasks z).pid, s.setState z .reaped)) ↔
        stored = true ∧ ∃ c, FirstChild s (s.tasks p).pid (wantOf pid) c ∧
          (s.tasks c).state = .zombie)) ∧
    ∀ z, ExitedChild s (s.tasks p).pid (-1) z →
      (wait4Resume s (-1) stored = (.done (s.tasks z).pid, s.setState z .reaped) ↔
        stored = true ∧ FirstChild s (s.tasks p).pid (-1) z) := by
  refine ⟨fun pid nohang _ => ⟨?_, ?_⟩, fun z hz => wait4Resume_reaps_iff hp (-1) stored hz⟩
  · rintro ⟨z, hz, heq⟩
    obtain ⟨hstored, hfirst⟩ := (sysWait4_reaps_iff hp pid nohang stored hz).mp heq
    exact ⟨hstored, z, hfirst, hz.state⟩
  · rintro ⟨hstored, c, hfirst, hc⟩
    have hz := hfirst.exitedChild hc
    exact ⟨c, hz, (sysWait4_reaps_iff hp pid nohang stored hz).mpr ⟨hstored, hfirst⟩⟩

end Result

/-- Process 1 forks 2 and 3 and waits for any child, 2 waits for the keyboard, and then 3 runs. -/
def twoChildren : Sys :=
  let s₁ := (schedNext (schedSpawnProcess (schedInit blankSys) true).2).2
  let s₂ := (sysWait4 (sysFork (sysFork s₁ true true).2 true true).2 (-1) false true).2
  (schedNext (schedBlockAndSwitch (schedNext s₂).2 .kbd 0)).2

/-- Task `child` exits, the main loop wakes its parent and switches to it. -/
def exitAndWake (s : Sys) (child : ℕ) : Sys :=
  (schedNext (schedWakeWaitingParent child (schedMarkExited (fun _ _ _ => false) s child 0))).2

theorem wait4_reaps_iff_first :
    ∃ s, s = exitAndWake (schedNext twoChildren).2 2 ∧
      wait4Resume s (-1) true = (.done (s.tasks 2).pid, s.setState 2 .reaped) := by
  refine ⟨_, rfl, ((wait4_reaps_iff (p := 1) (by decide +kernel) true).2 2 ⟨by decide +kernel, by decide +kernel, by decide +kernel,
    by decide +kernel⟩).mpr ⟨rfl, by decide +kernel, by decide +kernel, by decide +kernel⟩⟩

/-- **Child 3 has exited and its parent 1 has been woken for it**, but child 2 is alive in a lower
slot: the caller blocks again, and another `wait4` would block too, or return 0 under `WNOHANG`. -/
theorem wait4_misses_exited_child :
    ∃ s, s = exitAndWake twoChildren 3 ∧ s.currentTask = some 1 ∧
      ExitedChild s (s.tasks 1).pid (-1) 3 ∧ (wait4Resume s (-1) true).1 = .blocked ∧
      (sysWait4 s (-1) false true).1 = .blocked ∧ (sysWait4 s (-1) true true).1 = .done 0 := by
  refine ⟨_, rfl, by decide +kernel, ⟨by decide +kernel, by decide +kernel, by decide +kernel, by decide +kernel⟩, by decide +kernel, by decide +kernel,
    by decide +kernel⟩

end BananaOS.Proc
