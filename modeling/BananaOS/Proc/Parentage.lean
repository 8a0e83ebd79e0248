import BananaOS.Proc.LoopInvariant

/-!
# Whose children `wait4` reaps

A task records its parent by pid, pids are slots, and slots are reused.  Nothing changes `ppid` when
the parent dies, so once the slot of a dead parent holds a new process, its orphans look like children
of that process.
-/

namespace BananaOS.Proc

open Function RingQueue GuardedRun
open Sched (TaskState WaitKind Word)

/-! ## Histories -/

structure History where
  loop : Loop
  /-- How many processes slot `i` has held. -/
  gen : ℕ → ℕ
  /-- The slot of the process that has forked the one in slot `i`, and which of that slot's processes
  it was; `none` if the kernel has started it. -/
  creator : ℕ → Option (ℕ × ℕ)

def History.observe (h : History) (start : Option (ℕ × Option ℕ)) (l : Loop) : History :=
  match start with
  | none => { h with loop := l }
  | some (c, forker) =>
    { loop := l
      gen := update h.gen c (h.gen c + 1)
      creator := update h.creator c (forker.map fun p => (p, h.gen p)) }

def History.step (h : History) (e : Event) : Option History :=
  (h.loop.step e).map (h.observe (h.loop.start e))

def History.boot (s : Sys) (kernel : List Task) : History :=
  ⟨.boot s kernel, fun _ => 0, fun _ => none⟩

def ReapedIn (s s' : Sys) (c : ℕ) : Prop :=
  (s.tasks c).state ≠ .reaped ∧ (s'.tasks c).state = .reaped

instance (s s' : Sys) (c : ℕ) : Decidable (ReapedIn s s' c) := inferInstanceAs (Decidable (_ ∧ _))

/-- **Whatever `wait4` the running task calls, it reaps only what this process has forked.** -/
def OwnChildrenOnly (h : History) : Prop :=
  ∀ p, h.loop.phase = .slice p → (h.loop.sys.tasks p).state = .running → ∀ c,
    (∀ pid nohang stored, ReapedIn h.loop.sys (sysWait4 h.loop.sys pid nohang stored).2 c →
      h.creator c = some (p, h.gen p)) ∧
    ∀ want stored, ReapedIn h.loop.sys (wait4Resume h.loop.sys want stored).2 c →
      h.creator c = some (p, h.gen p)

/-! ## Starts -/

def Event.starts : Event → Bool
  | .launch kstack => kstack
  | .act (.fork vm kstack) => vm && kstack
  | _ => false

/-- **No slot is reused while a task that its last process has forked is not reaped.** -/
def NoOrphans (l : Loop) (e : Event) : Prop :=
  e.starts = true → ∀ c ∈ l.sys.reusable, ∀ i < l.sys.taskCount,
    (l.sys.tasks i).state ≠ .reaped → (l.sys.tasks i).ppid ≠ c

instance (l : Loop) (e : Event) : Decidable (NoOrphans l e) :=
  inferInstanceAs (Decidable (_ → _))

theorem schedSpawnProcess_eq_some {s : Sys} {kstack : Bool} {c : ℕ}
    (h : (schedSpawnProcess s kstack).1 = some c) :
    kstack = true ∧ (s.reusable = some c ∨ c = s.taskCount) := by
  unfold schedSpawnProcess at h
  cases kstack with
  | true =>
    refine ⟨rfl, ?_⟩
    rcases hr : s.reusable with _ | t
    · rw [hr] at h
      dsimp only at h
      split_ifs at h
      exact .inr (Option.some.inj h).symm
    · rw [hr] at h
      exact .inl h
  | false =>
    rcases hr : s.reusable with _ | t
    · rw [hr] at h
      dsimp only at h
      split_ifs at h
      cases h
    · rw [hr] at h
      cases h

theorem Loop.start_eq_some {l : Loop} {e : Event} {c : ℕ} {forker : Option ℕ}
    (h : l.start e = some (c, forker)) :
    e.starts = true ∧ (l.sys.reusable = some c ∨ c = l.sys.taskCount) ∧
      ∀ p, forker = some p → l.phase = .slice p := by
  obtain ⟨s, phase⟩ := l
  unfold Loop.start at h
  cases phase <;> cases e <;> dsimp only at h <;> try cases h
  case slice.act t a =>
    cases a <;> try cases h
    case fork vm kstack =>
      cases vm with
      | false => cases h
      | true =>
        obtain ⟨c', hc', heq⟩ := Option.map_eq_some_iff.mp h
        cases heq
        obtain ⟨rfl, hslot⟩ := schedSpawnProcess_eq_some hc'
        refine ⟨rfl, hslot, ?_⟩
        rintro p ⟨⟩
        rfl
  case console.launch kstack =>
    obtain ⟨c', hc', heq⟩ := Option.map_eq_some_iff.mp h
    cases heq
    obtain ⟨rfl, hslot⟩ := schedSpawnProcess_eq_some hc'
    exact ⟨rfl, hslot, nofun⟩

/-! ## Runs -/

/-- **The recorded parent is the real one.** -/
structure Lineage (h : History) : Prop where
  loop : LoopInv h.loop
  parent : ∀ c < h.loop.sys.taskCount, (h.loop.sys.tasks c).state ≠ .reaped →
    (h.loop.sys.tasks c).ppid ≠ 0 → (h.loop.sys.tasks c).ppid < h.loop.sys.taskCount ∧
      h.creator c = some ((h.loop.sys.tasks c).ppid, h.gen (h.loop.sys.tasks c).ppid)

section Runs

variable {h h' : History} {e : Event}

theorem Lineage.of_none (hl : Lineage h) {l : Loop} (hloop : LoopInv l)
    (hstep : TableStep h.loop.sys l.sys none) : Lineage (h.observe none l) := by
  refine ⟨hloop, fun c hlt hr hp => ?_⟩
  show (l.sys.tasks c).ppid < l.sys.taskCount ∧
    h.creator c = some ((l.sys.tasks c).ppid, h.gen (l.sys.tasks c).ppid)
  change c < l.sys.taskCount at hlt
  change (l.sys.tasks c).state ≠ .reaped at hr
  change (l.sys.tasks c).ppid ≠ 0 at hp
  cases hstep with
  | steady hst =>
    have hppid := (Task.ident_inj (hst.ident c)).2.2.1
    rw [hst.count] at hlt ⊢
    rw [ne_eq, hst.reaped c] at hr
    rw [hppid] at hp ⊢
    exact hl.parent c hlt hr hp
  | failed c' hst =>
    have hne : c ≠ c' := by
      rintro rfl
      exact hp hst.fields.2.2.1
    have hlt' := hst.lt_of_ne hlt hne
    rw [hst.other c hne] at hr hp ⊢
    obtain ⟨hpar, hcr⟩ := hl.parent c hlt' hr hp
    refine ⟨?_, hcr⟩
    rcases hst.count with hc | ⟨-, hc⟩ <;> omega
  | reaped c' hre =>
    have hcount : l.sys.taskCount = h.loop.sys.taskCount := by rw [hre.eq]; rfl
    have hne : c ≠ c' := by
      rintro rfl
      rw [hre.eq, tasks_setState_self] at hr
      exact hr rfl
    rw [hcount] at hlt ⊢
    rw [hre.eq, tasks_setState_of_ne _ hne] at hr hp ⊢
    exact hl.parent c hlt hr hp

theorem Lineage.of_started (hl : Lineage h) {l : Loop} (hloop : LoopInv l) {c : ℕ}
    {forker : Option ℕ} (hst : Started h.loop.sys l.sys c (parentPid h.loop.sys forker))
    (hforker : ∀ p, forker = some p → OnCpu h.loop.sys p)
    (horphan : ∀ i < h.loop.sys.taskCount, (h.loop.sys.tasks i).state ≠ .reaped →
      (h.loop.sys.tasks i).ppid ≠ 0 → (h.loop.sys.tasks i).ppid ≠ c) :
    Lineage (h.observe (some (c, forker)) l) := by
  have hcount : h.loop.sys.taskCount ≤ l.sys.taskCount := by
    rcases hst.count with hc | ⟨-, hc⟩ <;> omega
  refine ⟨hloop, fun i hlt hr hp => ?_⟩
  change i < l.sys.taskCount at hlt
  change (l.sys.tasks i).state ≠ .reaped at hr
  change (l.sys.tasks i).ppid ≠ 0 at hp
  show (l.sys.tasks i).ppid < l.sys.taskCount ∧ update h.creator c _ i =
    some ((l.sys.tasks i).ppid, update h.gen c _ (l.sys.tasks i).ppid)
  by_cases hic : i = c
  · -- the new process: its parent is the one that has forked it
    subst hic
    have hppid := hst.fields.2.2.1
    rcases forker with _ | p
    · exact absurd hppid hp
    · have hc := hforker p rfl
      have hpid : parentPid h.loop.sys (some p) = p := hl.loop.table.process p hc.lt hc.isUser
      rw [hppid, hpid, update_self, update_of_ne (hst.ne hc.lt hc.not_reaped)]
      exact ⟨hc.lt.trans_le hcount, rfl⟩
  · -- another one: its parent's slot is not the one that is started
    have hlt' := hst.lt_of_ne hlt hic
    rw [hst.other i hic] at hr hp ⊢
    obtain ⟨hpar, hcr⟩ := hl.parent i hlt' hr hp
    rw [update_of_ne hic, update_of_ne (horphan i hlt' hr hp)]
    exact ⟨hpar.trans_le hcount, hcr⟩

theorem Lineage.step (hl : Lineage h) (hok : NoOrphans h.loop e) (hstep : h.step e = some h') :
    Lineage h' := by
  obtain ⟨l, hl', rfl⟩ := Option.map_eq_some_iff.mp hstep
  have hloop := hl.loop.step hl'
  have htable := Loop.table_step hl.loop hl'
  rcases hs : h.loop.start e with _ | ⟨c, forker⟩
  · rw [hs] at htable
    exact hl.of_none hloop htable
  · rw [hs] at htable
    obtain ⟨hstarts, hslot, hforker⟩ := Loop.start_eq_some hs
    cases htable with
    | started c forker hst =>
      refine hl.of_started hloop hst (fun p hp => hl.loop.slice p (hforker p hp)) fun i hlt hr hp => ?_
      rcases hslot with hreuse | hfresh
      · exact hok hstarts c hreuse i hlt hr
      · exact hfresh ▸ (hl.parent i hlt hr hp).1.ne

theorem lineage_boot (s : Sys) (kernel : List Task) : Lineage (History.boot s kernel) := by
  have hloop := loopInv_boot s kernel
  refine ⟨hloop, fun c hlt _ hp => absurd ?_ hp⟩
  exact (hloop.table.kernel c hlt (boot_isUser s kernel c hlt)).2.1

theorem Wait4Step.reapedIn {s : Sys} {p c : ℕ} {r : Waited × Sys} (hstep : Wait4Step s p r)
    (hr : (s.tasks p).state ≠ .reaped) (hc : ReapedIn s r.2 c) :
    c < s.taskCount ∧ (s.tasks c).ppid = (s.tasks p).pid := by
  cases hstep with
  | done r => exact absurd hc.2 hc.1
  | reaps r s' c' hppid h =>
    have hcc : c = c' := by
      by_contra hne
      refine hc.1 ?_
      have hst := hc.2
      rwa [h.eq, tasks_setState_of_ne s hne] at hst
    exact hcc ▸ ⟨h.lt, hppid⟩
  | blocks s' h => exact absurd (((h.steady hr).reaped c).mp hc.2) hc.1

theorem Lineage.ownChildrenOnly (hl : Lineage h) : OwnChildrenOnly h := by
  intro p hphase hrun c
  have hc := hl.loop.slice p hphase
  have hpid : (h.loop.sys.tasks p).pid = p := hl.loop.table.process p hc.lt hc.isUser
  have hp0 : (h.loop.sys.tasks p).pid ≠ 0 := (hl.loop.table.pid_pos hc.lt hc.isUser).ne'
  have hreaped : ∀ r, Wait4Step h.loop.sys p r → ReapedIn h.loop.sys r.2 c →
      h.creator c = some (p, h.gen p) := by
    intro r hstep hre
    obtain ⟨hlt, hppid⟩ := hstep.reapedIn hc.not_reaped hre
    have hcr := (hl.parent c hlt hre.1 (hppid ▸ hp0)).2
    rwa [hppid, hpid] at hcr
  exact ⟨fun pid nohang stored => hreaped _ (sysWait4_step hl.loop.table hc.current hp0 _ _ _),
    fun want stored => hreaped _ (wait4Resume_step hl.loop.table hc.current hp0 _ _)⟩

/-- **`wait4` reaps only what the same process has forked**, in every state of every run in which no
slot is reused while a task forked by its last process is still in the table. -/
theorem wait4_reaps_own (s : Sys) (kernel : List Task) {es : List Event}
    (hrun : Run History.step (fun h e => NoOrphans h.loop e) (.boot s kernel) es h) :
    OwnChildrenOnly h :=
  Lineage.ownChildrenOnly
    (hrun.invariant (fun _ _ _ hl hok hstep => hl.step hok hstep) (lineage_boot s kernel))

end Runs

/-! ## Two runs -/

def forkAndWait : List Event :=
  launchRound ++ round [.act (.fork true true), .act (.wait4 (-1) false true)] ++ round exits ++
    [.next fun _ => false]

theorem wait4_reaps_own_child :
    ∃ h, Run History.step (fun h e => NoOrphans h.loop e) (.boot blankSys []) forkAndWait h ∧
      ReapedIn h.loop.sys (wait4Resume h.loop.sys (-1) true).2 2 ∧ h.creator 2 = some (1, h.gen 1) := by
  obtain ⟨h, hrun, hphase, hrunning, hreap⟩ := exists_run
    (P := fun h : History => h.loop.phase = .slice 1 ∧ (h.loop.sys.tasks 1).state = .running ∧
      ReapedIn h.loop.sys (wait4Resume h.loop.sys (-1) true).2 2)
    (show (execIf History.step (fun h e => NoOrphans h.loop e) (.boot blankSys []) forkAndWait).any
      _ = true by decide +kernel)
  exact ⟨h, hrun, hreap, (wait4_reaps_own blankSys [] hrun 1 hphase hrunning 2).2 (-1) true hreap⟩

/-- Process 1 forks 2 and waits; 2 forks 3 and exits, and so does 3.  Then 1 reaps 2 and forks again,
into slot 2, and the new process is picked. -/
def orphanRun : List Event :=
  launchRound ++ round [.act (.fork true true), .act (.wait4 (-1) false true)] ++
    round (.act (.fork true true) :: exits) ++ round exits ++
    round [.act (.wait4Resume (-1) true), .sysret 0 true, .act (.fork true true),
      .act (.block .kbd 0)] ++ [.next fun _ => false]

/-- **The second process in slot 2 reaps the child of the first.** -/
theorem wait4_reaps_orphan :
    ∃ h, Run History.step (fun _ _ => True) (.boot blankSys []) orphanRun h ∧
      h.loop.phase = .slice 2 ∧ (h.loop.sys.tasks 2).state = .running ∧ h.gen 2 = 2 ∧
      h.creator 3 = some (2, 1) ∧ (sysWait4 h.loop.sys (-1) false true).1 = .done 3 ∧
      ReapedIn h.loop.sys (sysWait4 h.loop.sys (-1) false true).2 3 :=
  exists_run (P := fun h : History => h.loop.phase = .slice 2 ∧
    (h.loop.sys.tasks 2).state = .running ∧ h.gen 2 = 2 ∧ h.creator 3 = some (2, 1) ∧
    (sysWait4 h.loop.sys (-1) false true).1 = .done 3 ∧
    ReapedIn h.loop.sys (sysWait4 h.loop.sys (-1) false true).2 3) (by decide +kernel)

end BananaOS.Proc
