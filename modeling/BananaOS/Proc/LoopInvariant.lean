import BananaOS.Proc.Calls

/-!
# What holds in every state of the main loop

`Loop.table_step` says what an event does to the table, and names the slot that is started and who has
forked it.  `LoopInv` collects the facts that the properties of the loop share and that no bug
disturbs: the table is in order, and in a slice the task that has the CPU is `current_task`, is not
reaped, and is a zombie only if it is about to be unwound.
-/

namespace BananaOS.Proc

open Function RingQueue GuardedRun
open Sched (TaskState WaitKind Word)

/-! ## The ends of system calls, and faults -/

section Leaving

variable {s : Sys} {t : ℕ}

theorem syscallEnd_spec (hc : s.currentTask = some t) (userRsp : Word) (writable : Bool) :
    (syscallEnd s userRsp writable).1 = s.exitRequest ∧
      Edited { s with exitRequest := false } (syscallEnd s userRsp writable).2 t := by
  have h := edited_signalCheckDeliver hc userRsp writable
  have hexit := h.exitRequest
  have hflag : ∀ s' : Sys, Edited s s' t →
      Edited { s with exitRequest := false } { s' with exitRequest := false } t := fun s' h =>
    ⟨h.ident, h.state, h.other, h.count, h.current, rfl, h.fds⟩
  have hoff : s.exitRequest = false → ∀ s' : Sys, Edited s s' t →
      Edited { s with exitRequest := false } s' t := fun ho s' h =>
    ⟨h.ident, h.state, h.other, h.count, h.current, h.exitRequest.trans ho, h.fds⟩
  unfold syscallEnd
  dsimp only
  cases hs : s.exitRequest with
  | true =>
    rw [hs] at hexit
    rw [if_pos hexit]
    exact ⟨rfl, hflag _ h⟩
  | false =>
    rw [hs] at hexit
    rw [if_neg (by rw [hexit]; exact Bool.false_ne_true)]
    split_ifs
    · exact ⟨rfl, hoff hs _ (h.withSig _)⟩
    · exact ⟨rfl, hoff hs _ (h.withSig _)⟩
    · exact ⟨rfl, hoff hs _ h⟩

/-- **An exception in user mode**: a handler is entered, the task is unwound dead, or, if its frame
cannot be written, unwound alive. -/
inductive Faulted (s : Sys) (t sig : ℕ) (writable : Bool) : Bool × Sys → Prop
  | handled (s' : Sys) (h : Edited s s' t) : Faulted s t sig writable (false, s')
  | died (s' : Sys) (h : Exited s s' t sig) :
      Faulted s t sig writable (true, { s' with exitRequest := false })
  | unwound (s' : Sys) (hw : writable = false) (hnow : DeliversNow s t sig) (h : Edited s s' t) :
      Faulted s t sig writable (true, { s' with exitRequest := false })

theorem userFault_cases (hc : s.currentTask = some t) (wk : ℕ → WaitKind → Word → Bool) (sig : ℕ)
    (faultRsp : Word) (writable : Bool) :
    Faulted s t sig writable (userFault wk s t sig faultRsp writable) := by
  unfold userFault excKillUser
  rcases signalDeliverNow_cases hc sig faultRsp writable with hnow | ⟨hdel, hfst, hedit, hreq⟩
  · rw [hnow]
    have hex := schedMarkExited_spec wk s t sig
    have hreq : ¬ (schedMarkExited wk s t sig).sig.request = true := by
      rw [hex.sig]
      exact Bool.false_ne_true
    dsimp only
    rw [if_neg hreq]
    exact .died _ hex
  · rcases hnow : signalDeliverNow s sig faultRsp writable with ⟨b, s'⟩
    rw [hnow] at hfst hedit hreq
    obtain rfl : b = true := hfst
    dsimp only
    by_cases hr : s'.sig.request = true
    · rw [if_pos hr]
      exact .handled _ (hedit.withSig _)
    · rw [if_neg hr]
      exact .unwound s' (Bool.eq_false_iff.mpr fun hw => hr (hreq hw)) hdel hedit

end Leaving

/-! ## The loop -/

structure OnCpu (s : Sys) (t : ℕ) : Prop where
  lt : t < s.taskCount
  isUser : (s.tasks t).isUser = true
  current : s.currentTask = some t
  not_reaped : (s.tasks t).state ≠ .reaped
  exited : (s.tasks t).state = .zombie → s.exitRequest = true

/-- **What holds in every state of the loop.** -/
structure LoopInv (l : Loop) : Prop where
  table : TableInv l.sys
  slice : ∀ t, l.phase = .slice t → OnCpu l.sys t
  back : ∀ t, l.phase = .back t → t < l.sys.taskCount ∧ (l.sys.tasks t).state ≠ .reaped

def Loop.start (l : Loop) (e : Event) : Option (ℕ × Option ℕ) :=
  match l.phase, e with
  | .slice t, .act a => a.start l.sys t
  | .console, .launch kstack => (schedSpawnProcess l.sys kstack).1.map fun c => (c, none)
  | _, _ => none

section Loop

variable {s s' : Sys} {t : ℕ}

theorem Edited.onCpu (h : Edited s s' t) (hc : OnCpu s t) : OnCpu s' t := by
  refine ⟨h.count ▸ hc.lt, ?_, h.current.trans hc.current, h.state ▸ hc.not_reaped, fun hz => ?_⟩
  · rw [(Task.ident_inj h.ident).2.2.2.1]
    exact hc.isUser
  · rw [h.exitRequest]
    exact hc.exited (h.state ▸ hz)

theorem OnCpu.own {o : Option (ℕ × Option ℕ)} (hc : OnCpu s t)
    (hr : (s.tasks t).state = .running) (htable : TableStep s s' o) (hown : Own s s' t) :
    OnCpu s' t := by
  obtain ⟨hlt, hid⟩ := htable.keeps hc.lt hc.not_reaped
  refine ⟨hlt, (Task.ident_inj hid).2.2.2.1.trans hc.isUser, hown.current.trans hc.current, ?_, ?_⟩
  · cases hown with
    | runs _ hst _ => exact hst ▸ hc.not_reaped
    | died _ hst _ => rw [hst]; exact nofun
  · cases hown with
    | runs _ hst _ =>
      rw [hst, hr]
      exact nofun
    | died _ _ hexit => exact fun _ => hexit

theorem dispatch_cases (s : Sys) (doorbell : Task → Bool) :
    Steady s (dispatch s doorbell).sys ∧ ((dispatch s doorbell).phase = .polls ∨
      ∃ t, (dispatch s doorbell).phase = .slice t ∧ OnCpu (dispatch s doorbell).sys t) := by
  have hnext := steady_schedNext s
  unfold dispatch
  rcases hn : schedNext s with ⟨_ | id, s₁⟩
  all_goals rw [hn] at hnext
  · exact ⟨hnext, .inl rfl⟩
  dsimp only at hnext ⊢
  rcases hget : schedGetTask s₁ id with _ | t
  · exact ⟨hnext, .inl rfl⟩
  have hal := (schedGetTask_eq_some hget).1
  dsimp only
  by_cases huser : (s₁.tasks t).isUser = true
  · rw [if_pos huser]
    have hcpu : OnCpu { s₁ with currentTask := some t } t :=
      ⟨hal.lt, huser, rfl, hal.not_reaped, fun h => absurd h hal.not_zombie⟩
    have hst : Steady s { s₁ with currentTask := some t } := hnext.congr rfl rfl
    by_cases hk : (s₁.tasks t).kctxValid = true
    · simp only [if_pos hk]
      have hself : ((schedAfterSwitch { s₁ with currentTask := some t } t).tasks t) =
          { s₁.tasks t with state := .running } := update_self ..
      refine ⟨hst.trans (steady_setState hal.not_reaped nofun), .inr ⟨t, rfl, hal.lt, ?_, rfl, ?_, ?_⟩⟩
      · rw [hself]
        exact huser
      · rw [hself]
        exact nofun
      · rw [hself]
        exact nofun
    · simp only [if_neg hk]
      exact ⟨hst, .inr ⟨t, rfl, hcpu⟩⟩
  · rw [if_neg huser]
    split_ifs
    · exact ⟨hnext.trans ((quiet_wakeWhere doorbell s₁).steady.trans (steady_schedRequeue _ t)),
        .inl rfl⟩
    · exact ⟨hnext.trans (steady_schedRequeue s₁ t), .inl rfl⟩

theorem steady_afterSlice (s : Sys) (t : ℕ) : Steady s (afterSlice s t) := by
  unfold afterSlice
  split_ifs
  · exact .refl s
  · exact (quiet_wakeWhere _ s).steady.congr rfl rfl
  · exact .refl s

theorem quiet_pollKey (s : Sys) (key : Bool) : Quiet s (pollKey s key) := by
  unfold pollKey
  split_ifs
  · exact (quiet_wakeWhere _ s).trans (quiet_wakeWhere _ _)
  · exact .refl s

theorem steady_pollAll (hids : Ids s) (key : Bool) (wk : ℕ → WaitKind → Word → Bool) (now : ℕ) :
    Steady s (pollAll s key wk now) := by
  have hkey := (quiet_pollKey s key).steady
  exact (hkey.trans (steady_schedPollTimeouts wk now (hkey.ids hids))).trans
    (quiet_wakeWhere _ _).steady

theorem steady_shellKill (s : Sys) (id : ℤ) : Steady s (shellKill s id) := by
  unfold shellKill
  rcases hget : schedGetTask s id with _ | t
  · exact .refl s
  · exact steady_schedKill (schedGetTask_eq_some hget).1.not_reaped

theorem schedForceReap_cases (hi : TableInv s) (pid : ℕ) :
    schedForceReap s pid = s ∨ ∃ c, Reaped s (schedForceReap s pid) c := by
  unfold schedForceReap
  by_cases hp : pid = 0
  · rw [if_pos hp]
    exact .inl rfl
  · rw [if_neg hp]
    rcases hfind : (List.range s.taskCount).find? fun i =>
      decide ((s.tasks i).pid = pid ∧ (s.tasks i).state = .zombie) with _ | c
    · exact .inl rfl
    · have hlt := List.mem_range.mp (List.mem_of_find?_eq_some hfind)
      have hc := List.find?_some hfind
      rw [decide_eq_true_eq] at hc
      exact .inr ⟨c, hlt, hi.isUser hlt (.inl (hc.1 ▸ hp)), hc.2, rfl⟩

end Loop

section Invariant

variable {l l' : Loop} {e : Event}

theorem Loop.table_step (hi : LoopInv l) (h : l.step e = some l') :
    TableStep l.sys l'.sys (l.start e) := by
  cases Loop.step_cases h with
  | next s doorbell => exact .steady (dispatch_cases s doorbell).1
  | act s t a hr =>
    have hc := hi.slice t rfl
    have hact := Act.run_acted hi.table hc.lt hc.isUser hc.current hr a
    rw [show Loop.start ⟨s, .slice t⟩ (.act a) = a.start s t from rfl]
    generalize a.start s t = o at hact
    generalize a.run s t = r at hact
    cases hact with
    | returns s' htable _ => exact htable
    | blocks s' ho h => exact ho ▸ .steady (h.steady hc.not_reaped)
  | sysret s t userRsp writable =>
    have hflag : Steady s { s with exitRequest := false } :=
      ⟨fun _ => rfl, rfl, fun _ => Iff.rfl⟩
    exact .steady (hflag.trans
      (syscallEnd_spec (s := s) (hi.slice t rfl).current userRsp writable).2.steady)
  | fault s t wk sig faultRsp writable hr =>
    have hc := hi.slice t rfl
    have hf := userFault_cases hc.current wk sig faultRsp writable
    generalize userFault wk s t sig faultRsp writable = r at hf
    cases hf with
    | handled s' h => exact .steady h.steady
    | died s' h =>
      refine .steady ⟨fun u => ?_, h.count, fun u => ?_⟩
      · by_cases hu : u = t
        · rw [hu, h.self]
          rfl
        · rw [(h.other u hu).eq_but]
          rfl
      · by_cases hu : u = t
        · rw [hu, h.self]
          exact iff_of_false nofun hc.not_reaped
        · exact (h.other u hu).reaped_iff
    | unwound s' _ _ h => exact .steady (h.steady.congr rfl rfl)
  | back s t => exact .steady (steady_afterSlice s t)
  | poll s key wk now => exact .steady (steady_pollAll hi.table.ids key wk now)
  | reapForeground s pid =>
    rcases schedForceReap_cases hi.table pid with heq | ⟨c, hc⟩
    · refine .steady ?_
      dsimp only
      rw [heq]
      exact .refl s
    · exact .reaped c hc
  | launch s kstack =>
    rw [show Loop.start ⟨s, .console⟩ (.launch kstack) =
      (schedSpawnProcess s kstack).1.map fun c => (c, none) from rfl]
    rcases schedSpawnProcess_cases s kstack with ⟨c, hfst, hc⟩ | ⟨hfst, hrest⟩
    · rw [hfst]
      exact .started c none hc
    · rw [hfst]
      rcases hrest with heq | ⟨c, hc⟩
      · refine .steady ?_
        dsimp only
        rw [heq]
        exact .refl s
      · exact .failed c hc
  | shellKill s id => exact .steady (steady_shellKill s id)
  | netPoll s => exact .steady (quiet_wakeWhere _ s).steady
  | tick s => exact .steady (steady_schedTick s)

def Phase.Ok (s : Sys) : Phase → Prop
  | .slice t => OnCpu s t
  | .back t => t < s.taskCount ∧ (s.tasks t).state ≠ .reaped
  | _ => True

theorem LoopInv.of_ok (htable : TableInv l.sys) (hok : l.phase.Ok l.sys) : LoopInv l := by
  refine ⟨htable, fun t hp => ?_, fun t hp => ?_⟩
  · rwa [hp] at hok
  · rwa [hp] at hok

theorem LoopInv.step (hi : LoopInv l) (h : l.step e = some l') : LoopInv l' := by
  refine .of_ok (hi.table.step (Loop.table_step hi h)) ?_
  cases Loop.step_cases h with
  | next s doorbell =>
    rcases (dispatch_cases s doorbell).2 with hp | ⟨t, hp, hc⟩
    · rw [hp]
      trivial
    · rw [hp]
      exact hc
  | act s t a hr =>
    have hc := hi.slice t rfl
    have hact := Act.run_acted hi.table hc.lt hc.isUser hc.current hr a
    generalize a.start s t = o at hact
    generalize a.run s t = r at hact ⊢
    cases hact with
    | returns s' htable hown => exact hc.own hr htable hown
    | blocks s' _ h => exact ⟨h.count ▸ hc.lt, by rw [h.state]; exact nofun⟩
  | sysret s t userRsp writable =>
    have hc := hi.slice t rfl
    obtain ⟨hleft, hedit⟩ := syscallEnd_spec hc.current userRsp writable
    generalize syscallEnd s userRsp writable = r at hleft hedit ⊢
    obtain ⟨b, s'⟩ := r
    dsimp only at hleft hedit ⊢
    subst hleft
    cases hx : s.exitRequest with
    | true => exact ⟨hedit.count ▸ hc.lt, hedit.state ▸ hc.not_reaped⟩
    | false =>
      refine hedit.onCpu ⟨hc.lt, hc.isUser, hc.current, hc.not_reaped, fun hz => ?_⟩
      cases hx.symm.trans (hc.exited hz)
  | fault s t wk sig faultRsp writable hr =>
    have hc := hi.slice t rfl
    have hf := userFault_cases hc.current wk sig faultRsp writable
    generalize userFault wk s t sig faultRsp writable = r at hf ⊢
    cases hf with
    | handled s' h => exact h.onCpu hc
    | died s' h => exact ⟨h.count ▸ hc.lt, by dsimp only; rw [h.self]; exact nofun⟩
    | unwound s' _ _ h => exact ⟨h.count ▸ hc.lt, h.state ▸ hc.not_reaped⟩
  | _ => trivial

/-! ## The start of the loop -/

theorem tableInv_bootSys (s : Sys) : TableInv (bootSys s) := by
  have hidle : (bootSys s).tasks 0 = (s.tasks 0).cleared.idle := rfl
  refine ⟨fun i hlt => ?_, fun i => .inl ?_, Nat.one_pos, ?_, fun i hlt hu => ?_, fun i hlt _ => ?_⟩
  · obtain rfl : i = 0 := Nat.lt_one_iff.mp hlt
    rw [hidle]
    rfl
  · show (if i < maxTasks then (schedInit s).tasks i else blankTask).pid = 0
    unfold schedInit
    dsimp only
    split_ifs <;> rfl
  · rfl
  · obtain rfl : i = 0 := Nat.lt_one_iff.mp hlt
    rw [hidle]
    rfl
  · obtain rfl : i = 0 := Nat.lt_one_iff.mp hlt
    rw [hidle]
    exact ⟨rfl, rfl, nofun⟩

theorem schedAdd_spec {s : Sys} (h : s.taskCount < maxTasks) (x : Task) :
    ∃ y, (schedAdd s x).tasks = update s.tasks s.taskCount y ∧
      y.ident = (s.taskCount, x.pid, x.ppid, x.isUser, x.named, x.hasFunc) ∧ y.state = .ready ∧
      (schedAdd s x).taskCount = s.taskCount + 1 := by
  unfold schedAdd
  rw [if_neg (Nat.not_le.mpr h)]
  exact ⟨_, rfl, rfl, rfl, rfl⟩

theorem TableInv.schedAdd {s : Sys} (hi : TableInv s) (x : Task) :
    TableInv (schedAdd s x.kernel) := by
  by_cases hfull : maxTasks ≤ s.taskCount
  · unfold Proc.schedAdd
    rw [if_pos hfull]
    exact hi
  · obtain ⟨y, htasks, hid, hst, hcount⟩ := schedAdd_spec (Nat.not_le.mp hfull) x.kernel
    have hself : (Proc.schedAdd s x.kernel).tasks s.taskCount = y := by
      rw [htasks, update_self]
    have hother : ∀ i, i < s.taskCount → (Proc.schedAdd s x.kernel).tasks i = s.tasks i := by
      intro i hlt
      rw [htasks, update_of_ne hlt.ne]
    have hslot : ∀ i, i < (Proc.schedAdd s x.kernel).taskCount →
        i < s.taskCount ∨ i = s.taskCount := by
      intro i hlt
      rw [hcount] at hlt
      omega
    simp only [Task.ident, Prod.mk.injEq] at hid
    refine ⟨fun i hlt => ?_, fun i => ?_, hcount ▸ Nat.succ_pos _, ?_, fun i hlt hu => ?_,
      fun i hlt hk => ?_⟩
    · rcases hslot i hlt with hlt | rfl
      · rw [hother i hlt]
        exact hi.ids i hlt
      · rw [hself, hid.1]
    · by_cases hi' : i = s.taskCount
      · rw [hi', hself, hid.2.1]
        exact .inl rfl
      · rw [htasks, update_of_ne hi']
        exact hi.pid i
    · rw [hother idleTask hi.pos]
      exact hi.idle
    · rcases hslot i hlt with hlt | rfl
      · rw [hother i hlt] at hu ⊢
        exact hi.process i hlt hu
      · rw [hself, hid.2.2.2.1] at hu
        cases hu
    · rcases hslot i hlt with hlt | rfl
      · rw [hother i hlt] at hk ⊢
        exact hi.kernel i hlt hk
      · rw [hself, hst]
        exact ⟨hid.2.1, hid.2.2.1, by simp⟩

theorem schedAdd_isUser {s : Sys} (h : ∀ i < s.taskCount, (s.tasks i).isUser = false) (x : Task) :
    ∀ i < (schedAdd s x.kernel).taskCount, ((schedAdd s x.kernel).tasks i).isUser = false := by
  intro i hlt
  by_cases hfull : maxTasks ≤ s.taskCount
  · unfold schedAdd at hlt ⊢
    rw [if_pos hfull] at hlt ⊢
    exact h i hlt
  · obtain ⟨y, htasks, hid, -, hcount⟩ := schedAdd_spec (Nat.not_le.mp hfull) x.kernel
    simp only [Task.ident, Prod.mk.injEq] at hid
    rw [htasks]
    by_cases hi : i = s.taskCount
    · rw [hi, update_self, hid.2.2.2.1]
      rfl
    · rw [update_of_ne hi]
      exact h i (by omega)

theorem boot_isUser (s : Sys) (kernel : List Task) : ∀ i < (Loop.boot s kernel).sys.taskCount,
    ((Loop.boot s kernel).sys.tasks i).isUser = false := by
  have hstart : ∀ i < (bootSys s).taskCount, ((bootSys s).tasks i).isUser = false := by
    intro i hlt
    obtain rfl : i = 0 := Nat.lt_one_iff.mp hlt
    rfl
  have hadd : ∀ (l : List Task) (s₀ : Sys), (∀ i < s₀.taskCount, (s₀.tasks i).isUser = false) →
      ∀ i < ((l.map Task.kernel).foldl schedAdd s₀).taskCount,
        (((l.map Task.kernel).foldl schedAdd s₀).tasks i).isUser = false := by
    intro l
    induction l with
    | nil => exact fun s₀ h => h
    | cons x l ih => exact fun s₀ h => ih _ (schedAdd_isUser h x)
  exact hadd kernel _ hstart

theorem loopInv_boot (s : Sys) (kernel : List Task) : LoopInv (Loop.boot s kernel) := by
  have hadd : ∀ (l : List Task) (s₀ : Sys), TableInv s₀ →
      TableInv ((l.map Task.kernel).foldl schedAdd s₀) := by
    intro l
    induction l with
    | nil => exact fun s₀ h => h
    | cons x l ih => exact fun s₀ h => ih _ (h.schedAdd x)
  exact ⟨hadd kernel _ (tableInv_bootSys s), nofun, nofun⟩

/-! ## The identity of a process -/

theorem TableInv.eq_of_pid {s : Sys} (hi : TableInv s) {i j : ℕ} (hlt : i < s.taskCount)
    (hu : (s.tasks i).isUser = true) (hj : j < s.taskCount)
    (hpid : (s.tasks j).pid = (s.tasks i).pid) : j = i := by
  have hpos := hi.pid_pos hlt hu
  have huj := hi.isUser hj (.inl (by omega))
  rwa [hi.process i hlt hu, hi.process j hj huj] at hpid

/-- **A process keeps its identity until it is reaped.**  From any state that the loop reaches,
nothing that happens to it or to others changes its pid, its parent or what kind of task it is, not
even the end of its parent; and no other task, of the kernel or of the user, ever has its pid. -/
theorem identity_kept (s : Sys) (kernel : List Task) {es es' : List Event} {u : ℕ}
    (hboot : Run Loop.step (fun _ _ => True) (.boot s kernel) es l) (hlt : u < l.sys.taskCount)
    (hu : (l.sys.tasks u).isUser = true)
    (hrun : Run Loop.step (fun m _ => (m.sys.tasks u).state ≠ .reaped) l es' l') :
    (l'.sys.tasks u).ident = (l.sys.tasks u).ident ∧
      ∀ j < l'.sys.taskCount, (l'.sys.tasks j).pid = (l.sys.tasks u).pid → j = u := by
  have hkeep : ∀ m e m', (LoopInv m ∧ u < m.sys.taskCount ∧
      (m.sys.tasks u).ident = (l.sys.tasks u).ident) → (m.sys.tasks u).state ≠ .reaped →
      m.step e = some m' → LoopInv m' ∧ u < m'.sys.taskCount ∧
        (m'.sys.tasks u).ident = (l.sys.tasks u).ident := by
    rintro m e m' ⟨hm, hlt, hid⟩ hr hstep
    obtain ⟨hlt', hid'⟩ := (Loop.table_step hm hstep).keeps hlt hr
    exact ⟨hm.step hstep, hlt', hid'.trans hid⟩
  have hi : LoopInv l :=
    hboot.invariant (fun _ _ _ hi _ hstep => hi.step hstep) (loopInv_boot s kernel)
  obtain ⟨hi', hlt', hid⟩ := hrun.invariant hkeep ⟨hi, hlt, rfl⟩
  obtain ⟨-, hpid, -, huser, -⟩ := Task.ident_inj hid
  exact ⟨hid, fun j hj h => hi'.table.eq_of_pid hlt' (huser.trans hu) hj (h.trans hpid.symm)⟩

end Invariant

/-- Process 1 forks and exits. -/
theorem identity_kept_fork : ∃ l l', Run Loop.step (fun _ _ => True) (.boot blankSys []) launchRound l ∧
    Run Loop.step (fun m _ => (m.sys.tasks 1).state ≠ .reaped) l
      (round (.act (.fork true true) :: exits)) l' ∧ l'.sys.taskCount = 3 ∧
    (l'.sys.tasks 1).state = .zombie ∧ (l'.sys.tasks 1).ident = (l.sys.tasks 1).ident := by
  obtain ⟨l, hboot, ⟨hlt, hu⟩, hexits⟩ := exists_run
    (P := fun l : Loop => (1 < l.sys.taskCount ∧ (l.sys.tasks 1).isUser = true) ∧
      (execIf Loop.step (fun m _ => (m.sys.tasks 1).state ≠ .reaped) l
        (round (.act (.fork true true) :: exits))).any (fun l' => decide
          (l'.sys.taskCount = 3 ∧ (l'.sys.tasks 1).state = .zombie)) = true)
    (show (execIf Loop.step (fun _ _ => True) (.boot blankSys []) launchRound).any _ = true by
      decide +kernel)
  obtain ⟨l', hrun, hcount, hzombie⟩ := exists_run hexits
  exact ⟨l, l', hboot, hrun, hcount, hzombie, (identity_kept blankSys [] hboot hlt hu hrun).1⟩

end BananaOS.Proc
