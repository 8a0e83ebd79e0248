import BananaOS.Proc.MainLoop

/-!
# What a system call does

Each system call of the main loop's model, as the rest of the table sees it.  For the table a call is
one of four things: nobody is started or reaped (`Steady`), a process is started (`Started`), a start
fails after it has written its slot, or one zombie is reaped (`Reaped`); this is `TableStep`.  For the
caller it is one of three: it goes on, it has been marked as exited (`Own`), or it has blocked
(`Slept`).  `Act.run_acted` says both for every call.
-/

namespace BananaOS.Proc

open Function RingQueue GuardedRun
open Sched (TaskState WaitKind Word)

/-! ## Edits of one task -/

structure Edited (s s' : Sys) (t : ℕ) : Prop where
  ident : (s'.tasks t).ident = (s.tasks t).ident
  state : (s'.tasks t).state = (s.tasks t).state
  other : ∀ u, u ≠ t → s'.tasks u = s.tasks u
  count : s'.taskCount = s.taskCount
  current : s'.currentTask = s.currentTask
  exitRequest : s'.exitRequest = s.exitRequest
  fds : s'.fds = s.fds

section Edits

variable {s s' s'' : Sys} {t : ℕ}

theorem Edited.refl (s : Sys) (t : ℕ) : Edited s s t := ⟨rfl, rfl, fun _ _ => rfl, rfl, rfl, rfl, rfl⟩

theorem Edited.trans (h : Edited s s' t) (h' : Edited s' s'' t) : Edited s s'' t :=
  ⟨h'.ident.trans h.ident, h'.state.trans h.state, fun u hu => (h'.other u hu).trans (h.other u hu),
    h'.count.trans h.count, h'.current.trans h.current, h'.exitRequest.trans h.exitRequest,
    h'.fds.trans h.fds⟩

theorem edited_modifyTask (s : Sys) (t : ℕ) {f : Task → Task}
    (hid : (f (s.tasks t)).ident = (s.tasks t).ident)
    (hst : (f (s.tasks t)).state = (s.tasks t).state) : Edited s (s.modifyTask t f) t :=
  ⟨by rw [tasks_modifyTask_self, hid], by rw [tasks_modifyTask_self, hst],
    fun _ hu => tasks_modifyTask_of_ne s hu f, rfl, rfl, rfl, rfl⟩

theorem Edited.withSig (h : Edited s s' t) (g : SigGlobals) : Edited s { s' with sig := g } t :=
  ⟨h.ident, h.state, h.other, h.count, h.current, h.exitRequest, h.fds⟩

theorem Edited.steady (h : Edited s s' t) : Steady s s' := by
  refine ⟨fun u => ?_, h.count, fun u => ?_⟩
  · by_cases hu : u = t
    · rw [hu, h.ident]
    · rw [h.other u hu]
  · by_cases hu : u = t
    · rw [hu, h.state]
    · rw [h.other u hu]

theorem edited_signalSetupDelivery (s : Sys) (t sig : ℕ) (userSp : Word) (writable : Bool) :
    Edited s (signalSetupDelivery s t sig userSp writable) t := by
  unfold signalSetupDelivery
  dsimp only
  have h₁ : Edited s (if (s.tasks t).usesAltstack sig then
      s.modifyTask t fun task => { task with altstackOnstack := true } else s) t := by
    split_ifs
    · exact edited_modifyTask s t rfl rfl
    · exact .refl s t
  cases writable with
  | true => exact (h₁.trans (edited_modifyTask _ t rfl rfl)).withSig _
  | false => exact h₁

variable (hc : s.currentTask = some t)

include hc

theorem edited_signalCheckDeliver (userRsp : Word) (writable : Bool) :
    Edited s (signalCheckDeliver s userRsp writable) t := by
  unfold signalCheckDeliver
  rw [hc]
  dsimp only
  split_ifs
  any_goals exact .refl s t
  exact edited_signalSetupDelivery ..

/-- The conditions of `signal_deliver_now` for task `t`. -/
def DeliversNow (s : Sys) (t sig : ℕ) : Prop :=
  IsSignal sig ∧ s.sig.active = false ∧ sigIgnVal < (s.tasks t).sigHandler sig ∧
    (s.tasks t).sigBlocked &&& sigBit sig = 0

instance (s : Sys) (t sig : ℕ) : Decidable (DeliversNow s t sig) :=
  inferInstanceAs (Decidable (_ ∧ _))

theorem signalDeliverNow_cases (sig : ℕ) (faultRsp : Word)
    (writable : Bool) : signalDeliverNow s sig faultRsp writable = (false, s) ∨
      (DeliversNow s t sig ∧ (signalDeliverNow s sig faultRsp writable).1 = true ∧
        Edited s (signalDeliverNow s sig faultRsp writable).2 t ∧
        (writable = true → (signalDeliverNow s sig faultRsp writable).2.sig.request = true)) := by
  unfold signalDeliverNow
  rw [hc]
  dsimp only
  split_ifs with hsig hactive hign hblocked
  any_goals exact .inl rfl
  refine .inr ⟨⟨hsig, Bool.eq_false_iff.mpr hactive, BitVec.not_le.mp hign,
    not_not.mp hblocked⟩, rfl, (edited_modifyTask s t (f := (·.pend sig)) rfl rfl).trans
    (edited_signalSetupDelivery ..), ?_⟩
  rintro rfl
  rfl

theorem edited_sysRtSigaction (sig : Word) (oldOk : Bool)
    (act : Option (Option SigAction)) : Edited s (sysRtSigaction s sig oldOk act).2 t := by
  unfold sysRtSigaction
  rw [hc]
  dsimp only
  split_ifs
  any_goals exact .refl s t
  rcases act with _ | _ | a
  · exact .refl s t
  · exact .refl s t
  · dsimp only
    exact edited_modifyTask s t rfl rfl

theorem edited_sysRtSigprocmask (how : Word) (oldOk : Bool)
    (set : Option (Option Word)) : Edited s (sysRtSigprocmask s how oldOk set).2 t := by
  unfold sysRtSigprocmask
  rw [hc]
  dsimp only
  split_ifs
  · exact .refl s t
  rcases set with _ | _ | m
  · exact .refl s t
  · exact .refl s t
  · dsimp only
    exact edited_modifyTask s t rfl rfl

theorem edited_sysSigaltstack (disable : Bool) (base size : Word) :
    Edited s (sysSigaltstack s disable base size) t := by
  unfold sysSigaltstack
  rw [hc]
  cases disable with
  | true => exact edited_modifyTask s t rfl rfl
  | false => exact edited_modifyTask s t rfl rfl

theorem edited_sysSetitimer (interval value now : ℕ) :
    Edited s (sysSetitimer s interval value now) t := by
  unfold sysSetitimer
  rw [hc]
  exact edited_modifyTask s t rfl rfl

theorem edited_sysRtSigreturn (userRsp : Word)
    (frame : Option SavedFrame) : Edited s (sysRtSigreturn s userRsp frame).2 t := by
  unfold sysRtSigreturn
  rw [hc]
  rcases frame with _ | f
  · exact .refl s t
  · exact (edited_modifyTask s t rfl rfl).withSig _

end Edits

/-! ## Blocking -/

structure Slept (s s' : Sys) (t : ℕ) : Prop where
  ident : (s'.tasks t).ident = (s.tasks t).ident
  state : (s'.tasks t).state = .blocked
  other : ∀ u, u ≠ t → s'.tasks u = s.tasks u
  count : s'.taskCount = s.taskCount
  current : s'.currentTask = s.currentTask
  exitRequest : s'.exitRequest = s.exitRequest
  fds : s'.fds = s.fds

section Blocking

variable {s s' : Sys} {t : ℕ}

theorem slept_schedBlockAndSwitch (hc : s.currentTask = some t) (kind : WaitKind) (arg : Word) :
    Slept s (schedBlockAndSwitch s kind arg) t := by
  unfold schedBlockAndSwitch
  rcases hc' : s.currentTask with _ | t'
  · cases hc'.symm.trans hc
  cases hc'.symm.trans hc
  refine ⟨?_, ?_, fun u hu => ?_, rfl, rfl, rfl, rfl⟩
  · rw [tasks_mlfqRemove, tasks_modifyTask_self]
    rfl
  · rw [tasks_mlfqRemove, tasks_modifyTask_self]
  · rw [tasks_mlfqRemove, tasks_modifyTask_of_ne s hu]

theorem Slept.steady (h : Slept s s' t) (hr : (s.tasks t).state ≠ .reaped) : Steady s s' := by
  refine ⟨fun u => ?_, h.count, fun u => ?_⟩
  · by_cases hu : u = t
    · rw [hu, h.ident]
    · rw [h.other u hu]
  · by_cases hu : u = t
    · rw [hu, h.state]
      exact iff_of_false nofun hr
    · rw [h.other u hu]

theorem sigtimedRound_cases (hc : s.currentTask = some t) (wanted : Word) (deadline now : ℕ) :
    ((sigtimedRound s t wanted deadline now).1 ≠ .blocked ∧
        Edited s (sigtimedRound s t wanted deadline now).2 t) ∨
      ((sigtimedRound s t wanted deadline now).1 = .blocked ∧
        Slept s (sigtimedRound s t wanted deadline now).2 t) := by
  unfold sigtimedRound
  dsimp only
  split_ifs
  · refine .inl ⟨nofun, ?_⟩
    dsimp only
    exact edited_modifyTask s t rfl rfl
  · exact .inl ⟨nofun, .refl s t⟩
  · exact .inl ⟨nofun, .refl s t⟩
  · exact .inr ⟨rfl, slept_schedBlockAndSwitch hc _ _⟩

theorem sysRtSigtimedwait_cases (hc : s.currentTask = some t) (set : Option Word)
    (deadline now : ℕ) :
    ((sysRtSigtimedwait s set deadline now).1 ≠ .blocked ∧
        Edited s (sysRtSigtimedwait s set deadline now).2 t) ∨
      ((sysRtSigtimedwait s set deadline now).1 = .blocked ∧
        Slept s (sysRtSigtimedwait s set deadline now).2 t) := by
  unfold sysRtSigtimedwait
  rw [hc]
  rcases set with _ | set
  · exact .inl ⟨nofun, .refl s t⟩
  · exact sigtimedRound_cases hc _ _ _

end Blocking

/-! ## Starts and reaps -/

structure Started (s s' : Sys) (c par : ℕ) : Prop where
  free : (c < s.taskCount ∧ (s.tasks c).state = .reaped) ∨ c = s.taskCount
  ident : (s'.tasks c).ident = (c, c, par, true, true, false)
  state : (s'.tasks c).state = .ready
  other : ∀ u, u ≠ c → s'.tasks u = s.tasks u
  count : s'.taskCount = s.taskCount ∨ (c = s.taskCount ∧ s'.taskCount = s.taskCount + 1)
  current : s'.currentTask = s.currentTask
  exitRequest : s'.exitRequest = s.exitRequest
  fds : ∀ i o, s'.fds i = some o → s.fds i = some o ∨ (i < 3 ∧ o = s'.currentPid)

structure Reaped (s s' : Sys) (c : ℕ) : Prop where
  lt : c < s.taskCount
  isUser : (s.tasks c).isUser = true
  zombie : (s.tasks c).state = .zombie
  eq : s' = s.setState c .reaped

section Starts

variable {s s' : Sys} {c t par : ℕ}

theorem Started.ne (h : Started s s' c par) (ht : t < s.taskCount)
    (hr : (s.tasks t).state ≠ .reaped) : t ≠ c := by
  rintro rfl
  rcases h.free with ⟨-, h⟩ | h
  · exact hr h
  · exact ht.ne h

theorem Started.fields (h : Started s s' c par) : (s'.tasks c).id = c ∧ (s'.tasks c).pid = c ∧
    (s'.tasks c).ppid = par ∧ (s'.tasks c).isUser = true := by
  have hid := h.ident
  simp only [Task.ident, Prod.mk.injEq] at hid
  exact ⟨hid.1, hid.2.1, hid.2.2.1, hid.2.2.2.1⟩

theorem started_spawnInto (hfree : (c < s.taskCount ∧ (s.tasks c).state = .reaped) ∨ c = s.taskCount)
    (kstack : Bool) : Started s (spawnInto s c kstack).2 c 0 := by
  have hself : (spawnInto s c kstack).2.tasks c = (s.tasks c).spawned c := by
    cases kstack <;> exact update_self ..
  refine ⟨hfree, ?_, ?_, fun u hu => ?_, .inl ?_, ?_, ?_, fun i o h => .inl ?_⟩
  · rw [hself]
    rfl
  · rw [hself]
    rfl
  · cases kstack <;> exact update_of_ne hu ..
  all_goals cases kstack <;> first | rfl | exact h

theorem Started.wireStd (h : Started s s' c par) : Started s s'.wireStd c par := by
  refine ⟨h.free, h.ident, h.state, h.other, h.count, h.current, h.exitRequest, fun i o ho => ?_⟩
  by_cases hi : i < 3 ∧ s'.fds i = none
  · have hown : s'.wireStd.fds i = some s'.currentPid := if_pos hi
    rw [hown] at ho
    exact .inr ⟨hi.1, (Option.some.inj ho).symm⟩
  · have hown : s'.wireStd.fds i = s'.fds i := if_neg hi
    rw [hown] at ho
    exact h.fds i o ho

theorem schedSpawnProcess_cases (s : Sys) (kstack : Bool) :
    (∃ c, (schedSpawnProcess s kstack).1 = some c ∧ Started s (schedSpawnProcess s kstack).2 c 0) ∨
      ((schedSpawnProcess s kstack).1 = none ∧
        ((schedSpawnProcess s kstack).2 = s ∨ ∃ c, Started s (schedSpawnProcess s kstack).2 c 0)) := by
  unfold schedSpawnProcess
  rcases hreuse : s.reusable with _ | t
  · dsimp only
    by_cases hfull : maxTasks ≤ s.taskCount
    · rw [if_pos hfull]
      exact .inr ⟨rfl, .inl rfl⟩
    · rw [if_neg hfull]
      have h := started_spawnInto (s := s) (.inr rfl) kstack
      cases kstack with
      | true =>
        refine .inl ⟨_, rfl, Started.wireStd ⟨h.free, h.ident, h.state, h.other, .inr ⟨rfl, rfl⟩,
          h.current, h.exitRequest, h.fds⟩⟩
      | false => exact .inr ⟨rfl, .inr ⟨_, h⟩⟩
  · have h := started_spawnInto (.inl (reusable_spec hreuse)) kstack
    cases kstack with
    | true => exact .inl ⟨t, rfl, h.wireStd⟩
    | false => exact .inr ⟨rfl, .inr ⟨t, h⟩⟩

theorem Started.forked (h : Started s s' c 0) (x : Task) :
    Started s (s'.modifyTask c fun child => child.forked x) c x.pid := by
  have hself : (s'.modifyTask c fun child => child.forked x).tasks c = (s'.tasks c).forked x :=
    update_self ..
  have hid := h.ident
  have hpid : (s'.modifyTask c fun child => child.forked x).currentPid = s'.currentPid := by
    unfold Sys.currentPid
    rw [show (s'.modifyTask c fun child => child.forked x).currentTask = s'.currentTask from rfl]
    rcases s'.currentTask with _ | u
    · rfl
    · dsimp only
      by_cases hu : u = c
      · rw [hu, hself]
        rfl
      · rw [tasks_modifyTask_of_ne s' hu]
  refine ⟨h.free, ?_, ?_, fun u hu => ?_, h.count, h.current, h.exitRequest, fun i o ho => ?_⟩
  · rw [hself]
    simp only [Task.ident, Prod.mk.injEq] at hid
    simp [Task.ident, Task.forked, hid]
  · rw [hself]
    rfl
  · rw [tasks_modifyTask_of_ne s' hu]
    exact h.other u hu
  · rw [hpid]
    exact h.fds i o ho

end Starts

/-! ## What an event does to the table -/

/-- The parent's pid of a task that `forker` has forked, or that the kernel has launched. -/
def parentPid (s : Sys) (forker : Option ℕ) : ℕ := forker.elim 0 fun p => (s.tasks p).pid

/-- **What happens to the table.**  The index is the slot that is started, with its forker. -/
inductive TableStep (s s' : Sys) : Option (ℕ × Option ℕ) → Prop
  | steady (h : Steady s s') : TableStep s s' none
  | failed (c : ℕ) (h : Started s s' c 0) : TableStep s s' none
  | reaped (c : ℕ) (h : Reaped s s' c) : TableStep s s' none
  | started (c : ℕ) (forker : Option ℕ) (h : Started s s' c (parentPid s forker)) :
      TableStep s s' (some (c, forker))

/-- **The table is in order**: processes have their slot as pid, and what is no process is not
reaped. -/
structure TableInv (s : Sys) : Prop where
  ids : Ids s
  /-- Also past the slots in use, where a start that failed may have been. -/
  pid : ∀ i, (s.tasks i).pid = 0 ∨ (s.tasks i).pid = i
  pos : 0 < s.taskCount
  idle : (s.tasks idleTask).isUser = false
  process : ∀ i < s.taskCount, (s.tasks i).isUser = true → (s.tasks i).pid = i
  kernel : ∀ i < s.taskCount, (s.tasks i).isUser = false →
    (s.tasks i).pid = 0 ∧ (s.tasks i).ppid = 0 ∧ (s.tasks i).state ≠ .reaped

section Table

variable {s s' : Sys} {o : Option (ℕ × Option ℕ)} {c par u : ℕ}

theorem Task.ident_inj {x y : Task} (h : x.ident = y.ident) :
    x.id = y.id ∧ x.pid = y.pid ∧ x.ppid = y.ppid ∧ x.isUser = y.isUser ∧ x.named = y.named ∧
      x.hasFunc = y.hasFunc := by
  simpa only [Task.ident, Prod.mk.injEq] using h

theorem TableInv.ne_idle (hi : TableInv s) (hu : (s.tasks u).isUser = true) : u ≠ 0 := by
  rintro rfl
  cases hi.idle.symm.trans hu

theorem TableInv.pid_pos (hi : TableInv s) (hlt : u < s.taskCount)
    (hu : (s.tasks u).isUser = true) : 0 < (s.tasks u).pid := by
  rw [hi.process u hlt hu]
  exact Nat.pos_of_ne_zero (hi.ne_idle hu)

theorem TableInv.isUser (hi : TableInv s) (hlt : u < s.taskCount)
    (h : (s.tasks u).pid ≠ 0 ∨ (s.tasks u).ppid ≠ 0 ∨ (s.tasks u).state = .reaped) :
    (s.tasks u).isUser = true := by
  by_contra hk
  obtain ⟨hpid, hppid, hr⟩ := hi.kernel u hlt (Bool.eq_false_iff.mpr hk)
  rcases h with h | h | h
  · exact h hpid
  · exact h hppid
  · exact hr h

theorem TableInv.steady (hi : TableInv s) (h : Steady s s') : TableInv s' := by
  refine ⟨h.ids hi.ids, fun i => ?_, h.count ▸ hi.pos, ?_, fun i hlt hu => ?_, fun i hlt hk => ?_⟩
  · rw [(Task.ident_inj (h.ident i)).2.1]
    exact hi.pid i
  · rw [(Task.ident_inj (h.ident idleTask)).2.2.2.1]
    exact hi.idle
  · obtain ⟨-, hpid, -, huser, -⟩ := Task.ident_inj (h.ident i)
    rw [hpid]
    exact hi.process i (h.count ▸ hlt) (huser ▸ hu)
  · obtain ⟨-, hpid, hppid, huser, -⟩ := Task.ident_inj (h.ident i)
    rw [hpid, hppid, ne_eq, h.reaped]
    exact hi.kernel i (h.count ▸ hlt) (huser ▸ hk)

theorem Started.ne_idle (h : Started s s' c par) (hi : TableInv s) : idleTask ≠ c := by
  rintro rfl
  rcases h.free with ⟨hlt, hr⟩ | hlt
  · exact (hi.kernel _ hlt hi.idle).2.2 hr
  · exact hi.pos.ne hlt

theorem Started.lt_of_ne (h : Started s s' c par) {i : ℕ} (hlt : i < s'.taskCount) (hi : i ≠ c) :
    i < s.taskCount := by
  rcases h.count with hc | ⟨rfl, hc⟩ <;> omega

theorem TableInv.started (hi : TableInv s) (h : Started s s' c par) : TableInv s' := by
  obtain ⟨hid, hpid, -, huser⟩ := h.fields
  refine ⟨fun i hlt => ?_, fun i => ?_, ?_, ?_, fun i hlt hu => ?_, fun i hlt hk => ?_⟩
  · by_cases hic : i = c
    · rw [hic, hid]
    · rw [h.other i hic]
      exact hi.ids i (h.lt_of_ne hlt hic)
  · by_cases hic : i = c
    · exact .inr (hic ▸ hpid)
    · rw [h.other i hic]
      exact hi.pid i
  · have hpos := hi.pos
    rcases h.count with hc | ⟨-, hc⟩ <;> omega
  · rw [h.other _ (h.ne_idle hi)]
    exact hi.idle
  · by_cases hic : i = c
    · rw [hic, hpid]
    · rw [h.other i hic] at hu ⊢
      exact hi.process i (h.lt_of_ne hlt hic) hu
  · by_cases hic : i = c
    · rw [hic, huser] at hk
      cases hk
    · rw [h.other i hic] at hk ⊢
      exact hi.kernel i (h.lt_of_ne hlt hic) hk

theorem TableInv.reaped (hi : TableInv s) (h : Reaped s s' c) : TableInv s' := by
  have hid : ∀ i, (s'.tasks i).ident = (s.tasks i).ident := by
    intro i
    rw [h.eq]
    by_cases hic : i = c
    · rw [hic, tasks_setState_self]
      rfl
    · rw [tasks_setState_of_ne s hic]
  have hcount : s'.taskCount = s.taskCount := by rw [h.eq]; rfl
  refine ⟨fun i hlt => ?_, fun i => ?_, hcount ▸ hi.pos, ?_, fun i hlt hu => ?_, fun i hlt hk => ?_⟩
  · exact (Task.ident_inj (hid i)).1.trans (hi.ids i (hcount ▸ hlt))
  · rw [(Task.ident_inj (hid i)).2.1]
    exact hi.pid i
  · exact (Task.ident_inj (hid _)).2.2.2.1.trans hi.idle
  · obtain ⟨-, hpid, -, huser, -⟩ := Task.ident_inj (hid i)
    rw [hpid]
    exact hi.process i (hcount ▸ hlt) (huser ▸ hu)
  · obtain ⟨-, hpid, hppid, huser, -⟩ := Task.ident_inj (hid i)
    have hic : i ≠ c := by
      rintro rfl
      cases (huser ▸ hk).symm.trans h.isUser
    rw [hpid, hppid, h.eq, tasks_setState_of_ne s hic]
    exact hi.kernel i (hcount ▸ hlt) (huser ▸ hk)

theorem TableInv.step (hi : TableInv s) (h : TableStep s s' o) : TableInv s' := by
  cases h with
  | steady h => exact hi.steady h
  | failed c h => exact hi.started h
  | reaped c h => exact hi.reaped h
  | started c forker h => exact hi.started h

theorem TableStep.keeps (h : TableStep s s' o) (hlt : u < s.taskCount)
    (hr : (s.tasks u).state ≠ .reaped) :
    u < s'.taskCount ∧ (s'.tasks u).ident = (s.tasks u).ident := by
  cases h with
  | steady h => exact ⟨h.count ▸ hlt, h.ident u⟩
  | failed c h =>
    refine ⟨?_, by rw [h.other u (h.ne hlt hr)]⟩
    rcases h.count with hc | ⟨-, hc⟩ <;> omega
  | reaped c h =>
    refine ⟨by rw [h.eq]; exact hlt, ?_⟩
    rw [h.eq]
    by_cases hc : u = c
    · rw [hc, tasks_setState_self]
      rfl
    · rw [tasks_setState_of_ne s hc]
  | started c forker h =>
    refine ⟨?_, by rw [h.other u (h.ne hlt hr)]⟩
    rcases h.count with hc | ⟨-, hc⟩ <;> omega

end Table

/-! ## System calls -/

/-- What has happened to the task that has the CPU: it goes on, or has been marked as exited and will
be unwound. -/
inductive Own (s s' : Sys) (t : ℕ) : Prop
  | runs (hcur : s'.currentTask = s.currentTask) (hst : (s'.tasks t).state = (s.tasks t).state)
      (hexit : s'.exitRequest = s.exitRequest)
  | died (hcur : s'.currentTask = s.currentTask) (hst : (s'.tasks t).state = .zombie)
      (hexit : s'.exitRequest = true)

section Calls

variable {s s' s'' : Sys} {t u : ℕ} {wk : ℕ → WaitKind → Word → Bool}

theorem Own.refl (s : Sys) (t : ℕ) : Own s s t := .runs rfl rfl rfl

theorem Own.current (h : Own s s' t) : s'.currentTask = s.currentTask := by
  cases h <;> assumption

theorem Own.trans (h : Own s s' t) (h' : Own s' s'' t) : Own s s'' t := by
  cases h' with
  | died hcur hst hexit => exact .died (hcur.trans h.current) hst hexit
  | runs hcur hst hexit =>
    cases h with
    | runs hcur₁ hst₁ hexit₁ =>
      exact .runs (hcur.trans hcur₁) (hst.trans hst₁) (hexit.trans hexit₁)
    | died hcur₁ hst₁ hexit₁ =>
      exact .died (hcur.trans hcur₁) (hst.trans hst₁) (hexit.trans hexit₁)

theorem Edited.own (h : Edited s s' t) : Own s s' t := .runs h.current h.state h.exitRequest

theorem Quiet.own (h : Quiet s s') (hb : (s.tasks t).state ≠ .blocked) : Own s s' t :=
  .runs h.current (by rw [(h.tasks t).eq_of_ne hb]) h.exitRequest

theorem own_exit (wk : ℕ → WaitKind → Word → Bool) (s : Sys) (t : ℕ) (code : ℤ) :
    Own s { schedMarkExited wk s t code with exitRequest := true } t := by
  have h := schedMarkExited_spec wk s t code
  exact .died h.current (congrArg Task.state h.self) rfl

theorem schedKill_current (hid : (s.tasks u).id = u) (hc : s.currentTask ≠ some u) :
    (schedKill s (s.tasks u).id).currentTask = s.currentTask := by
  rw [hid]
  by_cases hk : u < s.taskCount ∧ (s.tasks u).state ≠ .zombie
  · rw [(schedKill_spec hk.1 hk.2).current, if_neg hc]
  · rw [schedKill_of_dead hk]

theorem schedKill_exitRequest (s : Sys) (u : ℕ) : (schedKill s u).exitRequest = s.exitRequest := by
  by_cases hk : u < s.taskCount ∧ (s.tasks u).state ≠ .zombie
  · exact (schedKill_spec hk.1 hk.2).exitRequest
  · rw [schedKill_of_dead hk]

theorem killOneTask_current (hid : (s.tasks u).id = u) (sig : ℕ) :
    (killOneTask wk s u sig).currentTask = s.currentTask := by
  have h := killOneTask_cases wk s u sig
  generalize killOneTask wk s u sig = s' at h ⊢
  cases h with
  | exits => exact (schedMarkExited_spec wk s u sig).current
  | killed _ hc => exact schedKill_current hid hc
  | woken => exact (quiet_schedWake _ u).current
  | pends => rfl
  | ignored => rfl

theorem killOneTask_exitRequest {sig : ℕ}
    (h : s.currentTask ≠ some u ∨ ¬ (IsSignal sig ∧ Lethal (s.tasks u) sig)) :
    (killOneTask wk s u sig).exitRequest = s.exitRequest := by
  have hcases := killOneTask_cases wk s u sig
  generalize killOneTask wk s u sig = s' at hcases ⊢
  cases hcases with
  | exits hl hc => exact absurd hl (h.resolve_left (not_not.mpr hc))
  | killed => exact schedKill_exitRequest s _
  | woken => exact (quiet_schedWake _ u).exitRequest
  | pends => rfl
  | ignored => rfl

theorem own_killOneTask (hid : (s.tasks u).id = u) (hc : s.currentTask = some t)
    (hb : (s.tasks t).state ≠ .blocked) (sig : ℕ) : Own s (killOneTask wk s u sig) t := by
  by_cases hut : t = u
  · subst hut
    have h := killOneTask_cases wk s t sig
    generalize killOneTask wk s t sig = s' at h ⊢
    cases h with
    | exits => exact own_exit wk s t sig
    | killed _ hc' => exact absurd hc hc'
    | woken _ _ hb' => exact absurd hb' hb
    | pends => exact (edited_modifyTask s t (f := (·.pend sig)) rfl rfl).own
    | ignored => exact .refl s t
  · refine .runs (killOneTask_current hid sig) ?_ (killOneTask_exitRequest (.inl ?_))
    · rw [(killOneTask_other hid hut).eq_of_ne hb]
    · rw [hc]
      exact fun h => hut (Option.some.inj h)

theorem Own.not_blocked (h : Own s s' t) (hb : (s.tasks t).state ≠ .blocked) :
    (s'.tasks t).state ≠ .blocked := by
  cases h with
  | runs _ hst _ => exact hst ▸ hb
  | died _ hst _ => rw [hst]; exact nofun

variable (wk) in
theorem killRound_spec (hids : Ids s) (hc : s.currentTask = some t)
    (hb : (s.tasks t).state ≠ .blocked) (pgid : ℤ) (sig : ℕ) (b : Bool) (i : ℕ) :
    Steady s (killRound wk pgid sig (b, s) i).2 ∧ Own s (killRound wk pgid sig (b, s) i).2 t := by
  unfold killRound
  dsimp only
  rcases hget : schedGetTask s i with _ | u
  · exact ⟨.refl s, .refl s t⟩
  · have hal := (schedGetTask_eq_some hget).1
    dsimp only
    split_ifs
    · exact ⟨steady_killOneTask wk (hids u hal.lt) hal.not_reaped sig,
        own_killOneTask (hids u hal.lt) hc hb sig⟩
    · exact ⟨.refl s, .refl s t⟩

theorem killGroup_spec (pgid : ℤ) (sig : ℕ) (l : List ℕ) : ∀ (b : Bool) (s : Sys), Ids s →
    s.currentTask = some t → (s.tasks t).state ≠ .blocked →
      Steady s (l.foldl (killRound wk pgid sig) (b, s)).2 ∧
        Own s (l.foldl (killRound wk pgid sig) (b, s)).2 t := by
  induction l with
  | nil => exact fun b s _ _ _ => ⟨.refl s, .refl s t⟩
  | cons i l ih =>
    intro b s hids hc hb
    obtain ⟨hst, hown⟩ := killRound_spec wk hids hc hb pgid sig b i
    obtain ⟨hst', hown'⟩ := ih _ _ (hst.ids hids) (hown.current.trans hc) (hown.not_blocked hb)
    exact ⟨hst.trans hst', hown.trans hown'⟩

variable (wk) in
theorem sysKill_spec (hids : Ids s) (hc : s.currentTask = some t) (hal : Alive s t)
    (hb : (s.tasks t).state ≠ .blocked) (pid sig : Word) :
    Steady s (sysKill wk s pid sig).2 ∧ Own s (sysKill wk s pid sig).2 t := by
  have hkill : ∀ u, Alive s u → Steady s (killOneTask wk s u sig.toNat) ∧
      Own s (killOneTask wk s u sig.toNat) t := fun u hu =>
    ⟨steady_killOneTask wk (hids u hu.lt) hu.not_reaped _, own_killOneTask (hids u hu.lt) hc hb _⟩
  unfold sysKill
  split_ifs
  · exact ⟨.refl s, .refl s t⟩
  · rcases htarget : killTarget s pid with _ | u
    · exact ⟨.refl s, .refl s t⟩
    · refine hkill u ?_
      unfold killTarget at htarget
      rw [hc] at htarget
      dsimp only at htarget
      split_ifs at htarget
      · exact Option.some.inj htarget ▸ hal
      · exact (schedGetTask_eq_some htarget).1
  · rw [hc]
    exact hkill t hal
  · exact killGroup_spec _ _ _ false s hids hc hb

theorem wait4Scan_cases (hi : TableInv s) (hpid : (s.tasks t).pid ≠ 0) (want : ℤ) (stored : Bool)
    (alive : Waited × Sys) :
    wait4Scan s t want stored alive = alive ∨
      ((wait4Scan s t want stored alive).1 ≠ .blocked ∧
        ((wait4Scan s t want stored alive).2 = s ∨
          ∃ c, (s.tasks c).ppid = (s.tasks t).pid ∧ Reaped s (wait4Scan s t want stored alive).2 c)) := by
  unfold wait4Scan
  rcases hfind : schedFindChild s (s.tasks t).pid want with _ | c
  · exact .inr ⟨nofun, .inl rfl⟩
  · dsimp only
    by_cases hz : (s.tasks c).state = .zombie
    · rw [if_pos hz]
      have hex := (schedFindChild_eq_some.mp hfind).exitedChild hz
      unfold reapChild
      cases stored with
      | true =>
        refine .inr ⟨nofun, .inr ⟨c, hex.ppid, hex.lt, hi.isUser hex.lt (.inr (.inl ?_)), hz, rfl⟩⟩
        rw [hex.ppid]
        exact hpid
      | false => exact .inr ⟨nofun, .inl rfl⟩
    · rw [if_neg hz]
      exact .inl rfl

/-- **`wait4` and its continuation, seen from the caller.** -/
inductive Wait4Step (s : Sys) (t : ℕ) : Waited × Sys → Prop
  | done (r : ℤ) : Wait4Step s t (.done r, s)
  | reaps (r : ℤ) (s' : Sys) (c : ℕ) (hppid : (s.tasks c).ppid = (s.tasks t).pid)
      (h : Reaped s s' c) : Wait4Step s t (.done r, s')
  | blocks (s' : Sys) (h : Slept s s' t) : Wait4Step s t (.blocked, s')

theorem wait4Scan_step (hi : TableInv s) (hpid : (s.tasks t).pid ≠ 0) {want : ℤ} {stored : Bool}
    {alive : Waited × Sys} (halive : Wait4Step s t alive) :
    Wait4Step s t (wait4Scan s t want stored alive) := by
  rcases wait4Scan_cases hi hpid want stored alive with h | ⟨hne, h⟩
  · rw [h]
    exact halive
  · rcases hscan : wait4Scan s t want stored alive with ⟨_ | _, s'⟩
    · rw [hscan] at h
      rcases h with rfl | ⟨c, hppid, hreap⟩
      · exact .done _
      · exact .reaps _ s' c hppid hreap
    · rw [hscan] at hne
      exact absurd rfl hne

theorem sysWait4_step (hi : TableInv s) (hc : s.currentTask = some t) (hpid : (s.tasks t).pid ≠ 0)
    (pid : Word) (nohang stored : Bool) : Wait4Step s t (sysWait4 s pid nohang stored) := by
  unfold sysWait4
  rw [hc]
  refine wait4Scan_step hi hpid ?_
  cases nohang with
  | true => exact .done 0
  | false => exact .blocks _ (slept_schedBlockAndSwitch hc _ _)

theorem wait4Resume_step (hi : TableInv s) (hc : s.currentTask = some t)
    (hpid : (s.tasks t).pid ≠ 0) (want : ℤ) (stored : Bool) :
    Wait4Step s t (wait4Resume s want stored) := by
  unfold wait4Resume
  rw [hc]
  exact wait4Scan_step hi hpid (.blocks _ (slept_schedBlockAndSwitch hc _ _))

theorem sysFork_cases (hc : s.currentTask = some t) (hlt : t < s.taskCount)
    (hr : (s.tasks t).state ≠ .reaped) (vm kstack : Bool) :
    (∃ c, vm = true ∧ (schedSpawnProcess s kstack).1 = some c ∧
        Started s (sysFork s vm kstack).2 c (s.tasks t).pid) ∨
      ((vm = true → (schedSpawnProcess s kstack).1 = none) ∧
        ((sysFork s vm kstack).2 = s ∨ ∃ c, Started s (sysFork s vm kstack).2 c 0)) := by
  unfold sysFork
  rw [hc]
  cases vm with
  | false => exact .inr ⟨nofun, .inl rfl⟩
  | true =>
    rcases hspawn : schedSpawnProcess s kstack with ⟨_ | c, s'⟩
    all_goals
      have hcases := schedSpawnProcess_cases s kstack
      rw [hspawn] at hcases
      obtain ⟨c', hfst, hst⟩ | ⟨hfst, hrest⟩ := hcases
    · cases hfst
    · exact .inr ⟨fun _ => rfl, hrest⟩
    · cases hfst
      refine .inl ⟨c, rfl, rfl, ?_⟩
      have hpar : s'.tasks t = s.tasks t := hst.other t (hst.ne hlt hr)
      exact hpar ▸ hst.forked (s'.tasks t)
    · cases hfst

end Calls

def Act.start (s : Sys) (t : ℕ) : Act → Option (ℕ × Option ℕ)
  | .fork true kstack => (schedSpawnProcess s kstack).1.map fun c => (c, some t)
  | _ => none

/-- **What a system call of task `t` does**: it goes back to the task, with the process that it has
forked or reaped, or it has blocked. -/
inductive Acted (s : Sys) (t : ℕ) (o : Option (ℕ × Option ℕ)) : Bool × Sys → Prop
  | returns (s' : Sys) (htable : TableStep s s' o) (hown : Own s s' t) : Acted s t o (false, s')
  | blocks (s' : Sys) (ho : o = none) (h : Slept s s' t) : Acted s t o (true, s')

section Acts

variable {s s' : Sys} {t : ℕ}

theorem Edited.acted (h : Edited s s' t) : Acted s t none (false, s') :=
  .returns s' (.steady h.steady) h.own

theorem Quiet.acted (h : Quiet s s') (hb : (s.tasks t).state ≠ .blocked) :
    Acted s t none (false, s') :=
  .returns s' (.steady h.steady) (h.own hb)

theorem acted_of_cases {r : Waited × Sys}
    (h : (r.1 ≠ .blocked ∧ Edited s r.2 t) ∨ (r.1 = .blocked ∧ Slept s r.2 t)) :
    Acted s t none (decide (r.1 = .blocked), r.2) := by
  rcases h with ⟨hne, h⟩ | ⟨heq, h⟩
  · rw [decide_eq_false hne]
    exact h.acted
  · rw [decide_eq_true heq]
    exact .blocks _ rfl h

theorem Wait4Step.acted {r : Waited × Sys} (h : Wait4Step s t r)
    (hr : (s.tasks t).state = .running) : Acted s t none (decide (r.1 = .blocked), r.2) := by
  cases h with
  | done r => exact (Edited.refl s t).acted
  | blocks s' h => exact .blocks s' rfl h
  | reaps r s' c _ h =>
    have htc : t ≠ c := by
      rintro rfl
      cases hr.symm.trans h.zombie
    refine .returns s' (.reaped c h) (.runs ?_ ?_ ?_)
    · rw [h.eq]
      rfl
    · rw [h.eq, tasks_setState_of_ne s htc]
    · rw [h.eq]
      rfl

theorem Act.run_acted (hi : TableInv s) (hlt : t < s.taskCount) (huser : (s.tasks t).isUser = true)
    (hc : s.currentTask = some t) (hr : (s.tasks t).state = .running) (a : Act) :
    Acted s t (a.start s t) (a.run s t) := by
  have hb : (s.tasks t).state ≠ .blocked := by rw [hr]; exact nofun
  have hreap : (s.tasks t).state ≠ .reaped := by rw [hr]; exact nofun
  have hpid : (s.tasks t).pid ≠ 0 := (hi.pid_pos hlt huser).ne'
  cases a with
  | exit wk code =>
    exact .returns _ (.steady ((steady_schedMarkExited wk hreap code).congr rfl rfl))
      (own_exit wk s t code)
  | kill wk pid sig =>
    obtain ⟨hst, hown⟩ := sysKill_spec wk hi.ids hc
      ⟨hlt, by rw [hr]; exact nofun, hreap⟩ hb pid sig
    exact .returns _ (.steady hst) hown
  | fork vm kstack =>
    have hown : ∀ {c par}, Started s (sysFork s vm kstack).2 c par →
        Own s (sysFork s vm kstack).2 t := fun h =>
      .runs h.current (congrArg Task.state (h.other t (h.ne hlt hreap))) h.exitRequest
    rcases sysFork_cases hc hlt hreap vm kstack with ⟨c, rfl, hfst, h⟩ | ⟨hfst, h⟩
    · refine .returns _ ?_ (hown h)
      rw [Act.start, hfst]
      exact .started c (some t) h
    · have hstart : Act.start s t (.fork vm kstack) = none := by
        cases vm with
        | true => rw [Act.start, hfst rfl]; rfl
        | false => rfl
      rw [hstart]
      rcases h with h | ⟨c, h⟩
      · refine .returns _ (.steady ?_) ?_
        · rw [h]
          exact .refl s
        · rw [h]
          exact .refl s t
      · exact .returns _ (.failed c h) (hown h)
  | wait4 pid nohang stored => exact (sysWait4_step hi hc hpid pid nohang stored).acted hr
  | wait4Resume want stored => exact (wait4Resume_step hi hc hpid want stored).acted hr
  | block kind arg => exact .blocks _ rfl (slept_schedBlockAndSwitch hc kind arg)
  | wake p => exact (quiet_wakeWhere p s).acted hb
  | rtSigaction sig oldOk act => exact (edited_sysRtSigaction hc sig oldOk act).acted
  | rtSigprocmask how oldOk set => exact (edited_sysRtSigprocmask hc how oldOk set).acted
  | rtSigtimedwait set deadline now => exact acted_of_cases (sysRtSigtimedwait_cases hc set _ _)
  | sigtimedResume wanted deadline now => exact acted_of_cases (sigtimedRound_cases hc wanted _ _)
  | rtSigreturn userRsp frame => exact (edited_sysRtSigreturn hc userRsp frame).acted
  | sigaltstack disable base size => exact (edited_sysSigaltstack hc disable base size).acted
  | setitimer interval value now => exact (edited_sysSetitimer hc interval value now).acted
  | openFd i =>
    refine Quiet.acted ?_ hb
    unfold Proc.openFd
    split_ifs
    · exact ⟨fun _ => .same, rfl, rfl, rfl, rfl⟩
    · exact .refl s
  | closeFd wk i =>
    have hq := quiet_wakeWhere (fun x => wk i x.waitKind x.waitArg) s
    exact Quiet.acted ⟨hq.tasks, hq.count, hq.current, hq.sig, hq.exitRequest⟩ hb

end Acts

end BananaOS.Proc
