import BananaOS.Proc.ExitRequest

/-!
# What becomes of the others

`Own` describes a signal or a timer from the side of the task that has the CPU.  `Fate` is the other
side: a task that does not have it is left alone, woken, or ended, and it is ended only if the signal
was sent to it and is lethal for it.  With it go the files: a task that is ended without having the
CPU keeps its slots in the fd table, and one that has it loses all of them.
-/

namespace BananaOS.Proc

open RingQueue GuardedRun
open Sched (TaskState WaitKind Word)

/-! ## Fates -/

/-- What becomes of a task: it waits for what it waited for, and is as it was, woken, or, if `L`,
dead. -/
structure Fate (L : Prop) (x y : Task) : Prop where
  ident : y.ident = x.ident
  waitKind : y.waitKind = x.waitKind
  waitArg : y.waitArg = x.waitArg
  state : y.state = x.state ∨ (x.state = .blocked ∧ y.state = .ready) ∨ (L ∧ y.state = .zombie)

section Fate

variable {L L' : Prop} {x y z : Task}

theorem Fate.refl (x : Task) : Fate L x x := ⟨rfl, rfl, rfl, .inl rfl⟩

theorem Fate.mono (h : Fate L x y) (hL : L → L') : Fate L' x y :=
  ⟨h.ident, h.waitKind, h.waitArg, h.state.imp_right fun h => h.imp_right fun h => ⟨hL h.1, h.2⟩⟩

theorem Fate.trans (h : Fate L x y) (h' : Fate L y z) : Fate L x z := by
  refine ⟨h'.ident.trans h.ident, h'.waitKind.trans h.waitKind, h'.waitArg.trans h.waitArg, ?_⟩
  rcases h'.state with he' | ⟨hb', hr'⟩ | hz'
  · rw [he']
    exact h.state
  · rcases h.state with he | ⟨-, hr⟩ | ⟨-, hz⟩
    · exact .inr (.inl ⟨he ▸ hb', hr'⟩)
    · cases hr.symm.trans hb'
    · cases hz.symm.trans hb'
  · exact .inr (.inr hz')

theorem Woken.fate (h : Woken x y) : Fate L x y := by
  refine ⟨?_, ?_, ?_, h.state.imp_right .inl⟩
  · rw [h.eq_but]
    rfl
  · rw [h.eq_but]
  · rw [h.eq_but]

theorem Fate.of_alive (h : Fate L x y) (hz : y.state ≠ .zombie) (hr : y.state ≠ .reaped) :
    x.state ≠ .zombie ∧ x.state ≠ .reaped := by
  rcases h.state with he | ⟨hb, -⟩ | ⟨-, hz'⟩
  · rw [← he]
    exact ⟨hz, hr⟩
  · rw [hb]
    exact ⟨nofun, nofun⟩
  · exact absurd hz' hz

theorem Fate.of_zombie (h : Fate L x y) (hx : x.state ≠ .zombie) (hy : y.state = .zombie) : L := by
  rcases h.state with he | ⟨-, hr⟩ | hz
  · exact absurd (he ▸ hy) hx
  · cases hr.symm.trans hy
  · exact hz.1

theorem Fate.of_ready (h : Fate L x y) (hx : x.state = .ready) :
    y.state = .ready ∨ y.state = .zombie := by
  rcases h.state with he | ⟨-, hr⟩ | ⟨-, hz⟩
  · exact .inl (he.trans hx)
  · exact .inl hr
  · exact .inr hz

end Fate

/-! ## Signals -/

section Signals

variable {s s' : Sys} {t u v : ℕ} {wk : ℕ → WaitKind → Word → Bool} {sig : ℕ}

theorem fate_killOneTask_of_not_lethal {L : Prop} (hl : ¬ (IsSignal sig ∧ Lethal (s.tasks v) sig)) :
    Fate L (s.tasks v) ((killOneTask wk s v sig).tasks v) := by
  have h := killOneTask_cases wk s v sig
  have hpend : Fate L (s.tasks v) ((s.modifyTask v (·.pend sig)).tasks v) := by
    rw [tasks_modifyTask_self]
    exact ⟨rfl, rfl, rfl, .inl rfl⟩
  generalize killOneTask wk s v sig = s' at h ⊢
  cases h with
  | exits hl' => exact absurd hl' hl
  | killed hl' => exact absurd hl' hl
  | woken => exact hpend.trans ((quiet_schedWake _ v).tasks v).fate
  | pends => exact hpend
  | ignored => exact .refl _

theorem fate_killOneTask (hid : (s.tasks v).id = v) (hal : Alive s v) (hu : s.currentTask ≠ some u) :
    Fate (u = v ∧ IsSignal sig ∧ Lethal (s.tasks u) sig) (s.tasks u)
      ((killOneTask wk s v sig).tasks u) := by
  by_cases huv : u = v
  · subst huv
    by_cases hl : IsSignal sig ∧ Lethal (s.tasks u) sig
    · rw [killOneTask_of_lethal hl.1 hl.2]
      unfold terminateBy
      rw [if_neg hu, hid, (schedKill_spec hal.lt hal.not_zombie).self]
      exact ⟨rfl, rfl, rfl, .inr (.inr ⟨⟨rfl, hl⟩, rfl⟩)⟩
    · exact fate_killOneTask_of_not_lethal hl
  · exact (killOneTask_other hid huv).fate

theorem fds_killOneTask (i : ℕ) : (killOneTask wk s v sig).fds i =
    if (s.currentTask = some v ∧ IsSignal sig ∧ Lethal (s.tasks v) sig) ∧ 0 < (s.tasks v).pid ∧
      i < maxFds ∧ s.fds i = some ((s.tasks v).pid : ℤ) then none else s.fds i := by
  have h := killOneTask_cases wk s v sig
  generalize killOneTask wk s v sig = s' at h ⊢
  cases h with
  | exits hl hc =>
    dsimp only
    rw [(schedMarkExited_spec wk s v sig).fds i]
    simp only [hc, hl.1, hl.2, true_and, and_self]
  | killed _ hc =>
    rw [if_neg fun h => hc h.1.1]
    by_cases hk : (s.tasks v).id < s.taskCount ∧ (s.tasks (s.tasks v).id).state ≠ .zombie
    · rw [(schedKill_spec hk.1 hk.2).fds]
    · rw [schedKill_of_dead hk]
  | woken hl =>
    rw [if_neg fun h => hl h.1.2, fds_schedWake]
    rfl
  | pends hl =>
    rw [if_neg fun h => hl h.1.2]
    rfl
  | ignored hl => rw [if_neg fun h => hl h.1.2]

structure Closes (s s' : Sys) (t : ℕ) : Prop where
  sub : ∀ i o, s'.fds i = some o → s.fds i = some o
  gone : (s.tasks t).state ≠ .zombie → (s'.tasks t).state = .zombie →
    ∀ i < maxFds, s'.fds i ≠ some ((s.tasks t).pid : ℤ)

theorem Closes.refl (s : Sys) (t : ℕ) : Closes s s t :=
  ⟨fun _ _ h => h, fun hne hz => absurd hz hne⟩

theorem Closes.trans {s'' : Sys} (h : Closes s s' t) (h' : Closes s' s'' t)
    (hpid : (s'.tasks t).pid = (s.tasks t).pid) : Closes s s'' t := by
  refine ⟨fun i o ho => h.sub i o (h'.sub i o ho), fun hne hz i hi ho => ?_⟩
  by_cases hz' : (s'.tasks t).state = .zombie
  · exact h.gone hne hz' i hi (h'.sub i _ ho)
  · exact h'.gone hz' hz i hi (hpid ▸ ho)

theorem closes_exit (hpid : 0 < (s.tasks t).pid) {code : ℤ} (h : Exited s s' t code) :
    Closes s s' t := by
  refine ⟨fun i o ho => ?_, fun _ _ i hi ho => ?_⟩
  · rw [h.fds] at ho
    split_ifs at ho
    exact ho
  · rw [h.fds] at ho
    split_ifs at ho with hc
    exact hc ⟨hpid, hi, ho⟩

theorem closes_killOneTask (hid : (s.tasks v).id = v) (hc : s.currentTask = some t)
    (hpid : 0 < (s.tasks t).pid) (hb : (s.tasks t).state ≠ .blocked) :
    Closes s (killOneTask wk s v sig) t := by
  refine ⟨fun i o ho => ?_, fun hne hz i hi ho => ?_⟩
  · rw [fds_killOneTask] at ho
    split_ifs at ho
    exact ho
  · by_cases htv : t = v
    · subst htv
      have hl : IsSignal sig ∧ Lethal (s.tasks t) sig := by
        have h := killOneTask_cases wk s t sig
        generalize killOneTask wk s t sig = s' at h hz
        cases h with
        | exits hl => exact hl
        | killed hl => exact hl
        | woken _ _ hb' => exact absurd hb' hb
        | pends =>
          rw [tasks_modifyTask_self] at hz
          exact absurd hz hne
        | ignored => exact absurd hz hne
      rw [fds_killOneTask] at ho
      split_ifs at ho with hcond
      exact hcond ⟨⟨hc, hl⟩, hpid, hi, ho⟩
    · rw [(killOneTask_other hid htv).eq_of_ne hb] at hz
      exact hne hz

theorem SigKept.lethal_iff {n : ℕ} {x y : Task} (h : SigKept n x y) (sig : ℕ) :
    Lethal y sig ↔ Lethal x sig := by
  unfold Lethal Caught
  rw [h.blocked, h.handler]

/-! ### `sys_kill` -/

def Struck (s : Sys) (pid sig : Word) (u : ℕ) : Prop :=
  Alive s u ∧ KillReaches s pid u ∧ IsSignal sig.toNat ∧ Lethal (s.tasks u) sig.toNat

variable (wk) (sig) in
theorem fate_killGroup (hut : u ≠ t) (pgid : ℤ) (l : List ℕ) :
    ∀ (b : Bool) (s₁ : Sys), Ids s₁ → s₁.taskCount = s.taskCount → s₁.currentTask = some t →
      (s₁.tasks t).state ≠ .blocked → 0 < (s₁.tasks t).pid →
      SigKept 0 (s.tasks u) (s₁.tasks u) →
      Fate (Alive s u ∧ (s.tasks u).inGroup pgid ∧ IsSignal sig ∧ Lethal (s.tasks u) sig)
        (s.tasks u) (s₁.tasks u) →
      Fate (Alive s u ∧ (s.tasks u).inGroup pgid ∧ IsSignal sig ∧ Lethal (s.tasks u) sig)
        (s.tasks u) ((l.foldl (killRound wk pgid sig) (b, s₁)).2.tasks u) ∧
      Closes s₁ (l.foldl (killRound wk pgid sig) (b, s₁)).2 t := by
  induction l with
  | nil => exact fun b s₁ _ _ _ _ _ _ hf => ⟨hf, .refl s₁ t⟩
  | cons i l ih =>
    intro b s₁ hids hcount hc hb hpid hk hf
    obtain ⟨hst, hown⟩ := killRound_spec wk hids hc hb pgid sig b i
    have hround : Fate (Alive s u ∧ (s.tasks u).inGroup pgid ∧ IsSignal sig ∧
          Lethal (s.tasks u) sig) (s.tasks u) ((killRound wk pgid sig (b, s₁) i).2.tasks u) ∧
        SigKept 0 (s.tasks u) ((killRound wk pgid sig (b, s₁) i).2.tasks u) ∧
        Closes s₁ (killRound wk pgid sig (b, s₁) i).2 t := by
      unfold killRound
      dsimp only
      rcases hget : schedGetTask s₁ i with _ | v
      · exact ⟨hf, hk, .refl s₁ t⟩
      · have hal := (schedGetTask_eq_some hget).1
        dsimp only
        split_ifs with hgroup
        · refine ⟨hf.trans ((fate_killOneTask (hids v hal.lt) hal ?_).mono ?_),
            hk.trans (sigKept_killOneTask (by decide) wk s₁ v u sig),
            closes_killOneTask (hids v hal.lt) hc hpid hb⟩
          · rw [hc]
            exact fun h => hut (Option.some.inj h).symm
          · rintro ⟨rfl, hsig, hl⟩
            obtain ⟨hz, hr⟩ := hf.of_alive hal.not_zombie hal.not_reaped
            obtain ⟨-, hpid', hppid', -⟩ := Task.ident_inj hf.ident
            refine ⟨⟨hcount ▸ hal.lt, hz, hr⟩, ?_, hsig, (hk.lethal_iff sig).mp hl⟩
            unfold Task.inGroup at hgroup ⊢
            rwa [hpid', hppid'] at hgroup
        · exact ⟨hf, hk, .refl s₁ t⟩
    have hpid' : ((killRound wk pgid sig (b, s₁) i).2.tasks t).pid = (s₁.tasks t).pid :=
      (Task.ident_inj (hst.ident t)).2.1
    obtain ⟨hf', hcl'⟩ := ih _ _ (hst.ids hids) (hst.count.trans hcount) (hown.current.trans hc)
      (hown.not_blocked hb) (hpid' ▸ hpid) hround.2.1 hround.1
    exact ⟨hf', hround.2.2.trans hcl' hpid'⟩

variable (wk) in
theorem sysKill_fate (hids : Ids s) (hc : s.currentTask = some t) (hal : Alive s t)
    (hb : (s.tasks t).state ≠ .blocked) (hpid : 0 < (s.tasks t).pid) (pid sig : Word) :
    (∀ u, u ≠ t → Fate (Struck s pid sig u) (s.tasks u) ((sysKill wk s pid sig).2.tasks u)) ∧
      Closes s (sysKill wk s pid sig).2 t := by
  have hne : ∀ u, u ≠ t → s.currentTask ≠ some u := by
    intro u hu
    rw [hc]
    exact fun h => hu (Option.some.inj h).symm
  unfold sysKill
  split_ifs with h64 hpos hzero
  · exact ⟨fun u _ => .refl _, .refl s t⟩
  · rcases htarget : killTarget s pid with _ | v
    · exact ⟨fun u _ => .refl _, .refl s t⟩
    · have halv : Alive s v := by
        unfold killTarget at htarget
        rw [hc] at htarget
        dsimp only at htarget
        split_ifs at htarget
        · exact Option.some.inj htarget ▸ hal
        · exact (schedGetTask_eq_some htarget).1
      refine ⟨fun u hu => (fate_killOneTask (hids v halv.lt) halv (hne u hu)).mono ?_,
        closes_killOneTask (hids v halv.lt) hc hpid hb⟩
      rintro ⟨rfl, hsig, hl⟩
      exact ⟨halv, .inl ⟨hpos, htarget⟩, hsig, hl⟩
  · rw [hc]
    refine ⟨fun u hu => (fate_killOneTask (hids t hal.lt) hal (hne u hu)).mono ?_,
      closes_killOneTask (hids t hal.lt) hc hpid hb⟩
    rintro ⟨rfl, -⟩
    exact absurd rfl hu
  · refine ⟨fun u hu => ?_, ?_⟩
    · have h := (fate_killGroup wk sig.toNat hu (-pid.toInt)
        (List.range s.taskCount) false s hids rfl hc hb hpid (.refl _) (.refl _)).1
      refine h.mono ?_
      rintro ⟨halu, hgroup, hsig, hl⟩
      exact ⟨halu, .inr (.inr ⟨by omega, hgroup⟩), hsig, hl⟩
    · exact (fate_killGroup wk sig.toNat (u := t + 1) (Nat.succ_ne_self t)
        (-pid.toInt) (List.range s.taskCount) false s hids rfl hc hb hpid (.refl _) (.refl _)).2

end Signals

/-! ## Timers -/

section Timers

variable {s : Sys} {t u : ℕ} {wk : ℕ → WaitKind → Word → Bool} {now : ℕ}

theorem pollTimeout_fds (h : s.currentTask ≠ some t ∨ ¬ TimerLethal (s.tasks t) now) :
    (pollTimeout wk now s t).fds = s.fds := by
  have hdeadline : ∀ s₁ : Sys, (deadlineRound now s₁ t).fds = s₁.fds := by
    intro s₁
    have hwake := fds_schedWake s₁ t
    unfold deadlineRound
    dsimp only
    split_ifs <;> first | rfl | exact hwake
  unfold pollTimeout
  split_ifs with hdead
  · rfl
  · rw [hdeadline]
    unfold timerRound
    split_ifs with he
    · funext i
      rw [fds_killOneTask, if_neg]
      · rfl
      · rintro ⟨⟨hc, hl⟩, -⟩
        rw [tasks_modifyTask_self] at hl
        rcases h with h | h
        · exact h hc
        · exact h ⟨fun hz => hdead (.inl hz), fun hr => hdead (.inr hr), he, hl.2⟩
    · rfl

theorem fate_pollTimeout (hid : (s.tasks t).id = t) (hlt : t < s.taskCount)
    (hcur : s.currentTask ≠ some t ∨ ¬ TimerLethal (s.tasks t) now) :
    Fate (TimerLethal (s.tasks t) now) (s.tasks t) ((pollTimeout wk now s t).tasks t) := by
  unfold pollTimeout
  split_ifs with hdead
  · rw [tasks_modifyTask_self]
    exact ⟨rfl, rfl, rfl, .inl rfl⟩
  · refine Fate.trans ?_ ((quiet_deadlineRound now _ t).tasks t).fate
    unfold timerRound
    split_ifs with he
    · set s₁ := s.modifyTask t Task.rearmed with hs₁
      have htask : s₁.tasks t = (s.tasks t).rearmed := tasks_modifyTask_self ..
      have hal : Alive s₁ t := by
        refine ⟨hlt, ?_, ?_⟩
        · rw [htask]
          exact fun hz => hdead (.inl hz)
        · rw [htask]
          exact fun hr => hdead (.inr hr)
      have hrearm : Fate (TimerLethal (s.tasks t) now) (s.tasks t) (s₁.tasks t) := by
        rw [htask]
        exact ⟨rfl, rfl, rfl, .inl rfl⟩
      have hid₁ : (s₁.tasks t).id = t := by
        rw [htask]
        exact hid
      by_cases hl : Lethal (s.tasks t) 14
      · have htl : TimerLethal (s.tasks t) now :=
          ⟨fun hz => hdead (.inl hz), fun hr => hdead (.inr hr), he, hl⟩
        exact hrearm.trans ((fate_killOneTask hid₁ hal (hcur.resolve_right (not_not.mpr htl))).mono
          fun _ => htl)
      · refine hrearm.trans (fate_killOneTask_of_not_lethal fun h => hl ?_)
        rw [htask] at h
        exact h.2
    · exact .refl _

variable (wk) in
theorem schedPollTimeouts_fate (hids : Ids s)
    (h : ∀ u ∈ s.currentTask, ¬ TimerLethal (s.tasks u) now) :
    (∀ u, Fate (TimerLethal (s.tasks u) now) (s.tasks u)
      ((schedPollTimeouts wk now s).tasks u)) ∧ (schedPollTimeouts wk now s).fds = s.fds := by
  have hloop : ∀ (l : List ℕ), l.Nodup → ∀ s₁ : Sys, Ids s₁ → (∀ i ∈ l, i < s₁.taskCount) →
      s₁.currentTask = s.currentTask →
      (∀ u ∈ l, Woken (s.tasks u) (s₁.tasks u)) →
      (∀ u, Fate (TimerLethal (s.tasks u) now) (s.tasks u) (s₁.tasks u)) →
      (∀ u, Fate (TimerLethal (s.tasks u) now) (s.tasks u)
        ((l.foldl (pollTimeout wk now) s₁).tasks u)) ∧
        (l.foldl (pollTimeout wk now) s₁).fds = s₁.fds := by
    intro l
    induction l with
    | nil => exact fun _ s₁ _ _ _ _ hf => ⟨hf, rfl⟩
    | cons i l ih =>
      intro hnd s₁ hids₁ hl hcur hw hf
      obtain ⟨hi, hnd⟩ := List.nodup_cons.mp hnd
      have hlt := hl i List.mem_cons_self
      have hid := hids₁ i hlt
      have hst := steady_pollTimeout wk now hid
      have hwi := hw i List.mem_cons_self
      have hspare : s₁.currentTask ≠ some i ∨ ¬ TimerLethal (s₁.tasks i) now := by
        by_cases hc : s₁.currentTask = some i
        · exact .inr fun hl' => h i (hcur ▸ hc) (hwi.timerLethal hl')
        · exact .inl hc
      obtain ⟨hf', hfds⟩ := ih hnd (pollTimeout wk now s₁ i) (hst.ids hids₁)
        (fun j hj => hst.count ▸ hl j (List.mem_cons_of_mem i hj))
        ((pollTimeout_current hid).trans hcur)
        (fun u hu => (hw u (List.mem_cons_of_mem i hu)).trans
          (pollTimeout_other wk now hid fun h => hi (h ▸ hu)))
        (fun u => by
          by_cases hui : u = i
          · subst hui
            exact (hf u).trans ((fate_pollTimeout hid hlt hspare).mono fun hl' => hwi.timerLethal hl')
          · exact (hf u).trans (pollTimeout_other wk now hid (Ne.symm hui)).fate)
      exact ⟨hf', hfds.trans (pollTimeout_fds hspare)⟩
  exact hloop _ List.nodup_range s hids (fun _ hi => List.mem_range.mp hi) rfl (fun _ _ => .same)
    fun _ => .refl _

variable (wk) in
theorem pollAll_fate (hids : Ids s) (key : Bool)
    (h : ∀ u ∈ s.currentTask, ¬ TimerLethal (s.tasks u) now) :
    (∀ u, Fate (TimerLethal (s.tasks u) now) (s.tasks u) ((pollAll s key wk now).tasks u)) ∧
      (pollAll s key wk now).fds = s.fds ∧
      (pollAll s key wk now).currentTask = s.currentTask := by
  have hkey := quiet_pollKey s key
  have hids' := hkey.steady.ids hids
  have hspare : ∀ u ∈ (pollKey s key).currentTask, ¬ TimerLethal ((pollKey s key).tasks u) now := by
    intro u hu hl
    rw [hkey.current] at hu
    exact h u hu ((hkey.tasks u).timerLethal hl)
  obtain ⟨hf, hfds⟩ := schedPollTimeouts_fate wk hids' hspare
  obtain ⟨-, hcur⟩ := schedPollTimeouts_exitRequest wk hids' hspare
  have hq := quiet_wakeWhere (fun t => decide (t.waitKind ≠ .none ∧
    t.sigPending &&& ~~~t.sigBlocked ≠ 0)) (schedPollTimeouts wk now (pollKey s key))
  refine ⟨fun u => ?_, ?_, ?_⟩
  · have hu := (hf u).mono fun hl => (hkey.tasks u).timerLethal hl
    exact ((hkey.tasks u).fate.trans hu).trans (hq.tasks u).fate
  · have hkfds : (pollKey s key).fds = s.fds := by
      unfold pollKey
      split_ifs
      · unfold schedWakeSelectAll schedWakeKbdAll
        rw [fds_wakeWhere, fds_wakeWhere]
      · rfl
    unfold pollAll schedPollSignals
    rw [fds_wakeWhere, hfds, hkfds]
  · exact hq.current.trans (hcur.trans hkey.current)

end Timers

end BananaOS.Proc
