import BananaOS.Proc.LoopInvariant

/-!
# Who the exit request is for

`syscall_exit_request` is set when a task is marked as exited, and asks the end of the next system
call to unwind to the main loop instead of returning to user mode.  It does not say whose system call.
That is no question while the task that is marked has the CPU: the next end of a system call is its
own.  It is one in `kill_one_task`, which takes `current_task` for the task that has the CPU; when
`sched_poll_timeouts` calls it from the main loop, `current_task` is the task that blocked last.
-/

namespace BananaOS.Proc

open RingQueue GuardedRun
open Sched (TaskState WaitKind Word)

/-! ## The owner of the request -/

/-- The loop, with the task that was marked as exited when the flag was last set. -/
structure Marked where
  loop : Loop
  owner : Option ℕ

/-- The task that is marked as exited with the flag set: in each of the three places it is
`current_task`. -/
def markedIn (s s' : Sys) : Option ℕ :=
  s.currentTask.filter fun c =>
    decide ((s.tasks c).state ≠ .zombie ∧ (s'.tasks c).state = .zombie)

def Marked.step (m : Marked) (e : Event) : Option Marked :=
  (m.loop.step e).map fun l => ⟨l, (markedIn m.loop.sys l.sys).or m.owner⟩

def Marked.boot (s : Sys) (kernel : List Task) : Marked := ⟨.boot s kernel, none⟩

/-- **The exit request reaches its owner**: a system call that unwinds is made by the task that was
marked when the flag was set, and no task is back in the main loop in state `RUNNING`. -/
structure ReachesOwner (m : Marked) : Prop where
  unwinds : ∀ t userRsp writable, m.loop.phase = .slice t →
    (syscallEnd m.loop.sys userRsp writable).1 = true →
      m.loop.sys.currentTask = some t ∧ m.owner = some t ∧ (m.loop.sys.tasks t).state = .zombie
  back : ∀ t, m.loop.phase = .back t → (m.loop.sys.tasks t).state ≠ .running

/-- **The two situations that are left out**: the timer of `current_task` ends it in the main loop,
and the frame of a signal that is delivered at once cannot be written. -/
def Spares (s : Sys) : Event → Prop
  | .poll _ _ now => ∀ u ∈ s.currentTask, (s.tasks u).state ≠ .zombie →
      (s.tasks u).state ≠ .reaped → (s.tasks u).expired now → ¬ Lethal (s.tasks u) 14
  | .fault _ sig _ writable => ∀ t ∈ s.currentTask, DeliversNow s t sig → writable = true
  | _ => True

instance (s : Sys) (e : Event) : Decidable (Spares s e) := by
  cases e <;> unfold Spares <;> infer_instance

/-! ## The timers and `current_task` -/

section Timers

variable {s : Sys} {t : ℕ} {wk : ℕ → WaitKind → Word → Bool} {now : ℕ}

def TimerLethal (x : Task) (now : ℕ) : Prop :=
  x.state ≠ .zombie ∧ x.state ≠ .reaped ∧ x.expired now ∧ Lethal x 14

theorem pollTimeout_current (hid : (s.tasks t).id = t) :
    (pollTimeout wk now s t).currentTask = s.currentTask := by
  unfold pollTimeout
  split_ifs
  · rfl
  · rw [(quiet_deadlineRound now _ t).current]
    unfold timerRound
    split_ifs
    · refine killOneTask_current ?_ 14
      rw [tasks_modifyTask_self]
      exact hid
    · rfl

theorem pollTimeout_exitRequest (h : s.currentTask ≠ some t ∨ ¬ TimerLethal (s.tasks t) now) :
    (pollTimeout wk now s t).exitRequest = s.exitRequest := by
  unfold pollTimeout
  split_ifs with hdead
  · rfl
  · rw [(quiet_deadlineRound now _ t).exitRequest]
    unfold timerRound
    split_ifs with he
    · refine killOneTask_exitRequest (s := s.modifyTask t Task.rearmed) (h.imp_right fun hno hl => ?_)
      rw [tasks_modifyTask_self] at hl
      exact hno ⟨fun hz => hdead (.inl hz), fun hr => hdead (.inr hr), he, hl.2⟩
    · rfl

theorem Woken.timerLethal {x y : Task} (hw : Woken x y) (h : TimerLethal y now) :
    TimerLethal x now := by
  obtain ⟨hz, hr, he, hl⟩ := h
  rcases hw.state with hst | ⟨hb, -⟩
  · rw [hst] at hz hr
    rw [hw.eq_but] at he
    exact ⟨hz, hr, he, (hw.lethal_iff 14).mp hl⟩
  · rw [hw.eq_but] at he
    refine ⟨?_, ?_, he, (hw.lethal_iff 14).mp hl⟩
    · rw [hb]
      exact nofun
    · rw [hb]
      exact nofun

variable (wk) in
theorem schedPollTimeouts_exitRequest (hids : Ids s)
    (h : ∀ u ∈ s.currentTask, ¬ TimerLethal (s.tasks u) now) :
    (schedPollTimeouts wk now s).exitRequest = s.exitRequest ∧
      (schedPollTimeouts wk now s).currentTask = s.currentTask := by
  have hloop : ∀ (l : List ℕ), l.Nodup → ∀ s₁ : Sys, Ids s₁ → (∀ i ∈ l, i < s₁.taskCount) →
      s₁.currentTask = s.currentTask →
      (∀ u ∈ s.currentTask, u ∈ l → Woken (s.tasks u) (s₁.tasks u)) →
      (l.foldl (pollTimeout wk now) s₁).exitRequest = s₁.exitRequest ∧
        (l.foldl (pollTimeout wk now) s₁).currentTask = s.currentTask := by
    intro l
    induction l with
    | nil => exact fun _ s₁ _ _ hcur _ => ⟨rfl, hcur⟩
    | cons i l ih =>
      intro hnd s₁ hids₁ hl hcur hw
      obtain ⟨hi, hnd⟩ := List.nodup_cons.mp hnd
      have hid := hids₁ i (hl i List.mem_cons_self)
      have hst := steady_pollTimeout wk now hid
      have hexit : (pollTimeout wk now s₁ i).exitRequest = s₁.exitRequest := by
        refine pollTimeout_exitRequest ?_
        by_cases hc : s₁.currentTask = some i
        · have hc' : s.currentTask = some i := hcur ▸ hc
          exact .inr fun hl' => h i hc' ((hw i hc' List.mem_cons_self).timerLethal hl')
        · exact .inl hc
      obtain ⟨hexit', hcur'⟩ := ih hnd (pollTimeout wk now s₁ i) (hst.ids hids₁)
        (fun j hj => hst.count ▸ hl j (List.mem_cons_of_mem i hj))
        ((pollTimeout_current hid).trans hcur) fun u hu hmem =>
          (hw u hu (List.mem_cons_of_mem i hmem)).trans
            (pollTimeout_other wk now hid fun h => hi (h ▸ hmem))
      exact ⟨hexit'.trans hexit, hcur'⟩
  exact hloop _ List.nodup_range s hids (fun _ hi => List.mem_range.mp hi) rfl fun _ _ _ => .same

theorem pollAll_exitRequest (hids : Ids s) {key : Bool} (h : Spares s (.poll key wk now)) :
    (pollAll s key wk now).exitRequest = s.exitRequest := by
  have hkey := quiet_pollKey s key
  have hpoll := schedPollTimeouts_exitRequest wk (hkey.steady.ids hids)
    fun u hu (hl : TimerLethal _ now) => by
      rw [hkey.current] at hu
      obtain ⟨hz, hr, he, hleth⟩ := (hkey.tasks u).timerLethal hl
      exact h u hu hz hr he hleth
  unfold pollAll schedPollSignals
  rw [(quiet_wakeWhere _ _).exitRequest, hpoll.1, hkey.exitRequest]

end Timers

/-! ## Events that do not touch the flag -/

section Untouched

variable {s : Sys}

theorem schedRequeue_exitRequest (s : Sys) (t : ℕ) :
    (schedRequeue s t).exitRequest = s.exitRequest := by
  unfold schedRequeue
  dsimp only
  split_ifs <;> rfl

theorem schedNext_exitRequest (s : Sys) : (schedNext s).2.exitRequest = s.exitRequest := by
  rcases schedNext_cases s with ⟨t, -, hp⟩ | ⟨-, hst⟩
  · exact hp.exitRequest
  · exact hst.exitRequest

theorem dispatch_exitRequest (s : Sys) (doorbell : Task → Bool) :
    (dispatch s doorbell).sys.exitRequest = s.exitRequest := by
  have hnext := schedNext_exitRequest s
  unfold dispatch
  rcases hn : schedNext s with ⟨_ | id, s₁⟩
  all_goals rw [hn] at hnext
  · exact hnext
  dsimp only at hnext ⊢
  rcases schedGetTask s₁ id with _ | t
  · exact hnext
  dsimp only
  split_ifs
  · exact hnext
  · exact hnext
  · rw [schedRequeue_exitRequest, (quiet_wakeWhere doorbell s₁).exitRequest, hnext]
  · rw [schedRequeue_exitRequest, hnext]

theorem afterSlice_exitRequest (s : Sys) (t : ℕ) :
    (afterSlice s t).exitRequest = s.exitRequest := by
  unfold afterSlice
  split_ifs
  · rfl
  · exact (quiet_wakeWhere _ s).exitRequest
  · rfl

theorem schedForceReap_exitRequest (hi : TableInv s) (pid : ℕ) :
    (schedForceReap s pid).exitRequest = s.exitRequest := by
  rcases schedForceReap_cases hi pid with h | ⟨c, h⟩
  · rw [h]
  · rw [h.eq]
    rfl

theorem schedSpawnProcess_exitRequest (s : Sys) (kstack : Bool) :
    (schedSpawnProcess s kstack).2.exitRequest = s.exitRequest := by
  rcases schedSpawnProcess_cases s kstack with ⟨c, -, h⟩ | ⟨-, h | ⟨c, h⟩⟩
  · exact h.exitRequest
  · rw [h]
  · exact h.exitRequest

theorem shellKill_exitRequest (s : Sys) (id : ℤ) :
    (shellKill s id).exitRequest = s.exitRequest := by
  unfold shellKill
  rcases schedGetTask s id with _ | t
  · rfl
  · exact schedKill_exitRequest s t

theorem schedTick_exitRequest (s : Sys) : (schedTick s).exitRequest = s.exitRequest := by
  unfold schedTick
  rcases s.currentTask with _ | t
  · rfl
  · dsimp only
    split_ifs <;> rfl

end Untouched

/-! ## Runs -/

/-- **The flag is set only in the slice of its owner, which is marked.** -/
structure FlagInv (m : Marked) : Prop where
  loop : LoopInv m.loop
  slice : ∀ t, m.loop.phase = .slice t → m.loop.sys.exitRequest = true →
    (m.loop.sys.tasks t).state = .zombie ∧ m.owner = some t
  outside : (∀ t, m.loop.phase ≠ .slice t) → m.loop.sys.exitRequest = false
  back : ∀ t, m.loop.phase = .back t → (m.loop.sys.tasks t).state ≠ .running

section Runs

variable {m m' : Marked} {e : Event}

theorem FlagInv.clear (hi : FlagInv m) {t : ℕ} (hp : m.loop.phase = .slice t)
    (hr : (m.loop.sys.tasks t).state = .running) : m.loop.sys.exitRequest = false := by
  by_contra hx
  have hz := (hi.slice t hp (Bool.eq_true_of_not_eq_false hx)).1
  cases hr.symm.trans hz

theorem FlagInv.of_outside (hloop : LoopInv m.loop) (hx : m.loop.sys.exitRequest = false)
    (hback : ∀ t, m.loop.phase = .back t → (m.loop.sys.tasks t).state ≠ .running) : FlagInv m :=
  ⟨hloop, fun _ _ h => absurd (hx.symm.trans h) Bool.false_ne_true, fun _ => hx, hback⟩

theorem FlagInv.step (hi : FlagInv m) (hok : Spares m.loop.sys e) (hstep : m.step e = some m') :
    FlagInv m' := by
  obtain ⟨l, hl, rfl⟩ := Option.map_eq_some_iff.mp hstep
  have hloop := hi.loop.step hl
  obtain ⟨⟨s, phase⟩, owner⟩ := m
  cases Loop.step_cases hl with
  | next _ doorbell =>
    exact .of_outside hloop ((dispatch_exitRequest s doorbell).trans (hi.outside nofun))
      fun t ht => by
        rcases (dispatch_cases s doorbell).2 with hp | ⟨u, hp, -⟩
        · cases hp.symm.trans ht
        · cases hp.symm.trans ht
  | act _ t a hr =>
    have hc := hi.loop.slice t rfl
    have hx : s.exitRequest = false := hi.clear rfl hr
    have hact := Act.run_acted hi.loop.table hc.lt hc.isUser hc.current hr a
    dsimp only at hact hloop ⊢
    generalize a.start s t = o at hact
    generalize a.run s t = r at hact hloop ⊢
    cases hact with
    | blocks s' _ h =>
      refine .of_outside hloop (h.exitRequest.trans hx) ?_
      rintro u ⟨⟩
      rw [h.state]
      exact nofun
    | returns s' _ hown =>
      cases hown with
      | runs _ _ hexit => exact .of_outside hloop (hexit.trans hx) nofun
      | died _ hst _ =>
        refine ⟨hloop, ?_, fun h => absurd rfl (h t), nofun⟩
        rintro u ⟨⟩ -
        refine ⟨hst, ?_⟩
        have hmark : markedIn s s' = some t := by
          unfold markedIn
          rw [hc.current, Option.filter_some, if_pos]
          rw [decide_eq_true_eq]
          exact ⟨by rw [hr]; exact nofun, hst⟩
        dsimp only
        rw [hmark]
        rfl
  | sysret _ t userRsp writable =>
    have hc := hi.loop.slice t rfl
    obtain ⟨hleft, hedit⟩ := syscallEnd_spec hc.current userRsp writable
    dsimp only at hleft hedit hloop ⊢
    generalize syscallEnd s userRsp writable = r at hleft hedit hloop ⊢
    obtain ⟨b, s'⟩ := r
    refine .of_outside hloop hedit.exitRequest fun u hu => ?_
    -- it unwinds only if the flag was set, and then the task is a zombie
    cases b with
    | false => cases hu
    | true =>
      cases hu
      have hz := (hi.slice t rfl hleft.symm).1
      rw [hedit.state]
      exact fun hr => nomatch hr.symm.trans hz
  | fault _ t wk sig faultRsp writable hr =>
    have hc := hi.loop.slice t rfl
    have hx : s.exitRequest = false := hi.clear rfl hr
    have hf := userFault_cases hc.current wk sig faultRsp writable
    dsimp only at hf hloop ⊢
    generalize userFault wk s t sig faultRsp writable = r at hf hloop ⊢
    cases hf with
    | handled s' h => exact .of_outside hloop (h.exitRequest.trans hx) nofun
    | died s' h =>
      refine .of_outside hloop rfl ?_
      rintro u ⟨⟩
      dsimp only
      rw [h.self]
      exact nofun
    | unwound s' hw hnow h => cases (hok t hc.current hnow).symm.trans hw
  | back _ t =>
    exact .of_outside hloop ((afterSlice_exitRequest s t).trans (hi.outside nofun)) nofun
  | poll _ key wk now =>
    exact .of_outside hloop
      ((pollAll_exitRequest hi.loop.table.ids hok).trans (hi.outside nofun)) nofun
  | reapForeground _ pid =>
    exact .of_outside hloop
      ((schedForceReap_exitRequest hi.loop.table pid).trans (hi.outside nofun)) nofun
  | launch _ kstack =>
    exact .of_outside hloop ((schedSpawnProcess_exitRequest s kstack).trans (hi.outside nofun)) nofun
  | shellKill _ id =>
    exact .of_outside hloop ((shellKill_exitRequest s id).trans (hi.outside nofun)) nofun
  | netPoll _ =>
    exact .of_outside hloop ((quiet_wakeWhere _ s).exitRequest.trans (hi.outside nofun)) nofun
  | tick _ => exact .of_outside hloop ((schedTick_exitRequest s).trans (hi.outside nofun)) nofun

theorem boot_exitRequest (s : Sys) (kernel : List Task) :
    (Loop.boot s kernel).sys.exitRequest = false := by
  have hadd : ∀ (s₀ : Sys) (x : Task), (schedAdd s₀ x).exitRequest = s₀.exitRequest := by
    intro s₀ x
    unfold schedAdd
    split_ifs <;> rfl
  have hall : ∀ (l : List Task) (s₀ : Sys), (l.foldl schedAdd s₀).exitRequest = s₀.exitRequest := by
    intro l
    induction l with
    | nil => exact fun _ => rfl
    | cons x l ih => exact fun s₀ => (ih _).trans (hadd s₀ x)
  exact hall _ _

theorem FlagInv.reachesOwner (hi : FlagInv m) : ReachesOwner m := by
  refine ⟨fun t userRsp writable hp hleft => ?_, hi.back⟩
  have hc := hi.loop.slice t hp
  rw [(syscallEnd_spec hc.current userRsp writable).1] at hleft
  obtain ⟨hz, howner⟩ := hi.slice t hp hleft
  exact ⟨hc.current, howner, hz⟩

/-- **The exit request reaches only its own task**, in every state of every run in which no timer ends
`current_task` in the main loop and the frames of signals delivered at once can be written. -/
theorem exit_reaches_owner (s : Sys) (kernel : List Task) {es : List Event}
    (hrun : Run Marked.step (fun m e => Spares m.loop.sys e) (.boot s kernel) es m) :
    ReachesOwner m := by
  refine FlagInv.reachesOwner (hrun.invariant (fun _ _ _ hi hok hstep => hi.step hok hstep) ?_)
  exact .of_outside (loopInv_boot s kernel) (boot_exitRequest s kernel) nofun

end Runs

def exitRun : List Event :=
  launchRound ++ [.next fun _ => false, .act (.exit (fun _ _ _ => false) 0)]

theorem exit_reaches_owner_exit :
    ∃ m, Run Marked.step (fun m e => Spares m.loop.sys e) (.boot blankSys []) exitRun m ∧
      m.loop.phase = .slice 1 ∧ (syscallEnd m.loop.sys 0 true).1 = true ∧ m.owner = some 1 := by
  obtain ⟨m, hrun, hphase, hleft⟩ := exists_run
    (P := fun m : Marked => m.loop.phase = .slice 1 ∧ (syscallEnd m.loop.sys 0 true).1 = true)
    (show (execIf Marked.step (fun m e => Spares m.loop.sys e) (.boot blankSys []) exitRun).any
      _ = true by decide +kernel)
  exact ⟨m, hrun, hphase, hleft,
    ((exit_reaches_owner blankSys [] hrun).unwinds 1 0 true hphase hleft).2.1⟩

/-- Two programs are launched.  Process 1 sets a timer, without a handler for `SIGALRM`, and waits for
the keyboard; the timer expires before anybody else has run.  Then process 2 makes a system call. -/
def timerRun : List Event :=
  [.next fun _ => false, .poll false (fun _ _ _ => false) 0, .launch true, .launch true, .tick,
    .next fun _ => false, .act (.setitimer 0 5 0), .act (.block .kbd 0), .back,
    .poll false (fun _ _ _ => false) 10, .tick, .next fun _ => false]

/-- **The request of process 1 unwinds process 2**: it is back in the main loop in state `RUNNING`, is
in no queue, and nobody has marked it. -/
theorem exit_reaches_another :
    ∃ m, Run Marked.step (fun _ _ => True) (.boot blankSys []) (timerRun ++ [.sysret 0 true]) m ∧
      m.owner = some 1 ∧ m.loop.phase = .back 2 ∧ (m.loop.sys.tasks 2).state = .running ∧
      (m.loop.sys.tasks 1).state = .zombie ∧ ∀ l < mlfqLevels, 2 ∉ m.loop.sys.level l :=
  exists_run (P := fun m : Marked => m.owner = some 1 ∧ m.loop.phase = .back 2 ∧
    (m.loop.sys.tasks 2).state = .running ∧ (m.loop.sys.tasks 1).state = .zombie ∧
    ∀ l < mlfqLevels, 2 ∉ m.loop.sys.level l) (by decide +kernel)

end BananaOS.Proc
