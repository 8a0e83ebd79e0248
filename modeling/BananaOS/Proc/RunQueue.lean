import BananaOS.Proc.Scheduler
import BananaOS.Lib.GuardedRun

/-!
# The run queues hold the ready tasks

`QueueInv` says what the queues are for: a queued task is ready and in the level of its priority, no
level has a task twice, and every ready task is queued, except the idle task, which is the fallback
of `sched_next` and may be ready without being queued.
-/

namespace BananaOS.Proc

open Function RingQueue GuardedRun
open Sched (TaskState WaitKind Word)

def Sys.level (s : Sys) (l : ℕ) : List ℕ := (s.mlfq l).toList

structure QueueInv (s : Sys) : Prop where
  queued : ∀ l < mlfqLevels, ∀ t ∈ s.level l,
    t < s.taskCount ∧ (s.tasks t).state = .ready ∧ (s.tasks t).priority = l
  nodup : ∀ l < mlfqLevels, (s.level l).Nodup
  ready : ∀ t < s.taskCount, t ≠ idleTask → (s.tasks t).state = .ready →
    (s.tasks t).priority < mlfqLevels ∧ t ∈ s.level (s.tasks t).priority

/-- **What `sched_next` returns**: the head of the highest nonempty level, and the idle task or
nothing if all levels are empty. -/
def NextIsHead (s : Sys) : Prop :=
  (∀ l < mlfqLevels, (∀ j < l, s.level j = []) → ∀ t rest, s.level l = t :: rest →
    (schedNext s).1 = some t) ∧
  ((∀ l < mlfqLevels, s.level l = []) →
    (schedNext s).1 = some idleTask ∨ (schedNext s).1 = none)

def Task.sched (t : Task) : ℕ × TaskState × ℕ × ℕ := (t.id, t.state, t.priority, t.savedPriority)

structure SchedInv (s : Sys) : Prop extends QueueInv s where
  count_pos : 0 < s.taskCount
  count_le : s.taskCount ≤ maxTasks
  id_eq : ∀ t < s.taskCount, (s.tasks t).id = t
  prio_lt : ∀ t < s.taskCount, (s.tasks t).priority < mlfqLevels
  saved_lt : ∀ t < s.taskCount, (s.tasks t).savedPriority < mlfqLevels
  current_lt : ∀ t, s.currentTask = some t → t < s.taskCount

structure SlotOk (t : ℕ) (x : Task) : Prop where
  id_eq : x.id = t
  prio_lt : x.priority < mlfqLevels
  saved_lt : x.savedPriority < mlfqLevels

variable {s s' : Sys} {t l : ℕ}

theorem SchedInv.slot (hi : SchedInv s) (ht : t < s.taskCount) : SlotOk t (s.tasks t) :=
  ⟨hi.id_eq t ht, hi.prio_lt t ht, hi.saved_lt t ht⟩

theorem SchedInv.of_slots (hq : QueueInv s) (hpos : 0 < s.taskCount)
    (hle : s.taskCount ≤ maxTasks) (hslot : ∀ t < s.taskCount, SlotOk t (s.tasks t))
    (hc : ∀ t, s.currentTask = some t → t < s.taskCount) : SchedInv s :=
  ⟨hq, hpos, hle, fun t ht => (hslot t ht).id_eq, fun t ht => (hslot t ht).prio_lt,
    fun t ht => (hslot t ht).saved_lt, hc⟩

theorem Task.sched_inj {x y : Task} (h : x.sched = y.sched) : x.id = y.id ∧ x.state = y.state ∧
    x.priority = y.priority ∧ x.savedPriority = y.savedPriority := by
  simpa only [Task.sched, Prod.mk.injEq] using h

theorem SlotOk.congr {x y : Task} (h : SlotOk t x) (he : y.sched = x.sched) : SlotOk t y := by
  obtain ⟨hid, -, hprio, hsaved⟩ := Task.sched_inj he
  exact ⟨hid.trans h.id_eq, hprio ▸ h.prio_lt, hsaved ▸ h.saved_lt⟩

structure Moved (s s' : Sys) (t : ℕ) (new : Option ℕ) : Prop where
  count : s'.taskCount = s.taskCount
  other : ∀ u, u ≠ t → (s'.tasks u).sched = (s.tasks u).sched
  level : ∀ l < mlfqLevels, s'.level l = (s.level l).erase t ++ if new = some l then [t] else []
  state_of_new : new ≠ none → (s'.tasks t).state = .ready
  new_of_state : (s'.tasks t).state = .ready → new ≠ none ∨ t = idleTask
  new_eq : ∀ l, new = some l → (s'.tasks t).priority = l
  id_eq : (s'.tasks t).id = t
  prio_lt : (s'.tasks t).priority < mlfqLevels
  saved_lt : (s'.tasks t).savedPriority < mlfqLevels
  current_lt : ∀ u, s'.currentTask = some u → u < s.taskCount

section Moved

variable {s s' : Sys} {t : ℕ} {new : Option ℕ}

theorem SchedInv.moved (hi : SchedInv s) (ht : t < s.taskCount) (hm : Moved s s' t new) :
    SchedInv s' := by
  have other_state : ∀ u, u ≠ t → (s'.tasks u).state = (s.tasks u).state := fun u hu =>
    (Task.sched_inj (hm.other u hu)).2.1
  have other_prio : ∀ u, u ≠ t → (s'.tasks u).priority = (s.tasks u).priority := fun u hu =>
    (Task.sched_inj (hm.other u hu)).2.2.1
  -- the new levels: `t` at its new place, everybody else at the old one
  have mem_level : ∀ l < mlfqLevels, ∀ u,
      u ∈ s'.level l ↔ (u ≠ t ∧ u ∈ s.level l) ∨ (u = t ∧ new = some l) := by
    intro l hl u
    rw [hm.level l hl, List.mem_append, (hi.nodup l hl).mem_erase_iff]
    by_cases hn : new = some l
    · simp [hn]
    · simp [hn]
  refine .of_slots ⟨?_, ?_, ?_⟩ (hm.count ▸ hi.count_pos) (hm.count ▸ hi.count_le) ?_
    (hm.count ▸ hm.current_lt)
  · intro l hl u hu
    rw [hm.count]
    rcases (mem_level l hl u).mp hu with ⟨hne, hu⟩ | ⟨rfl, hnew⟩
    · rw [other_state u hne, other_prio u hne]
      exact hi.queued l hl u hu
    · exact ⟨ht, hm.state_of_new (by rw [hnew]; exact Option.some_ne_none l), hm.new_eq l hnew⟩
  · intro l hl
    rw [hm.level l hl]
    have hnd := (hi.nodup l hl).erase t
    by_cases hn : new = some l
    · rw [if_pos hn]
      refine List.Nodup.append hnd (List.nodup_singleton t) fun u hu hu' => ?_
      rw [List.mem_singleton.mp hu', (hi.nodup l hl).mem_erase_iff] at hu
      exact hu.1 rfl
    · rw [if_neg hn, List.append_nil]
      exact hnd
  · intro u hu hidle hstate
    rw [hm.count] at hu
    by_cases hne : u = t
    · subst hne
      rcases hm.new_of_state hstate with hnew | hidle'
      · obtain ⟨l, hl⟩ := Option.ne_none_iff_exists'.mp hnew
        have hp := hm.new_eq l hl
        have hlt : l < mlfqLevels := hp ▸ hm.prio_lt
        rw [hp]
        exact ⟨hlt, (mem_level l hlt u).mpr (.inr ⟨rfl, hl⟩)⟩
      · exact absurd hidle' hidle
    · rw [other_state u hne] at hstate
      rw [other_prio u hne]
      obtain ⟨hlt, hmem⟩ := hi.ready u hu hidle hstate
      exact ⟨hlt, (mem_level _ hlt u).mpr (.inl ⟨hne, hmem⟩)⟩
  · intro u hu
    rw [hm.count] at hu
    by_cases hne : u = t
    · subst hne
      exact ⟨hm.id_eq, hm.prio_lt, hm.saved_lt⟩
    · exact (hi.slot hu).congr (hm.other u hne)

theorem Moved.congr (hm : Moved s s' t new) {s'' : Sys} (htasks : s''.tasks = s'.tasks)
    (hq : s''.mlfq = s'.mlfq) (hn : s''.taskCount = s'.taskCount)
    (hc : ∀ u, s''.currentTask = some u → u < s.taskCount) : Moved s s'' t new := by
  obtain ⟨tasks, mlfq, count, current, sig, exit, fds⟩ := s''
  subst htasks hq hn
  exact { hm with current_lt := hc }

theorem SchedInv.congr (hi : SchedInv s)
    (htasks : ∀ u < s.taskCount, (s'.tasks u).sched = (s.tasks u).sched)
    (hq : s'.mlfq = s.mlfq) (hn : s'.taskCount = s.taskCount)
    (hc : ∀ u, s'.currentTask = some u → u < s.taskCount) : SchedInv s' := by
  have hlevel : s'.level = s.level := by
    funext l
    show (s'.mlfq l).toList = _
    rw [hq]
    rfl
  refine .of_slots ⟨fun l hl u hu => ?_, ?_, fun u hu hidle hready => ?_⟩ (hn ▸ hi.count_pos)
    (hn ▸ hi.count_le) (fun u hu => ?_) (hn ▸ hc)
  · rw [hlevel] at hu
    have h := hi.queued l hl u hu
    obtain ⟨-, hstate, hprio, -⟩ := Task.sched_inj (htasks u h.1)
    rw [hn, hstate, hprio]
    exact h
  · rw [hlevel]
    exact hi.nodup
  · rw [hn] at hu
    obtain ⟨-, hstate, hprio, -⟩ := Task.sched_inj (htasks u hu)
    rw [hstate] at hready
    rw [hprio, hlevel]
    exact hi.ready u hu hidle hready
  · rw [hn] at hu
    exact (hi.slot hu).congr (htasks u hu)

end Moved

/-! ## One level

A level by itself is a list with room for `MAX_TASKS` tasks.  Both machines below answer the calls on
a level one after the other. -/

/-- A call of `mlfq_enqueue`, `mlfq_dequeue` or `mlfq_remove`. -/
inductive LevelCall where
  | enqueue (t : ℕ)
  | dequeue
  | remove (t : ℕ)

inductive LevelAnswer where
  | nothing
  | task (t : Option ℕ)
  | found (b : Bool)

def LevelCall.run (q : Ring ℕ maxTasks) : LevelCall → LevelAnswer × Ring ℕ maxTasks
  | .enqueue t => (.nothing, q.enqueue t)
  | .dequeue => (.task q.dequeue.1, q.dequeue.2)
  | .remove t => (.found (q.remove t).1, (q.remove t).2)

def LevelCall.runList (l : List ℕ) : LevelCall → LevelAnswer × List ℕ
  | .enqueue t => (.nothing, if l.length < maxTasks then l ++ [t] else l)
  | .dequeue => (.task l.head?, l.tail)
  | .remove t => (.found (decide (t ∈ l)), l.erase t)

def answers {S : Type} (run : S → LevelCall → LevelAnswer × S) :
    S → List LevelCall → List LevelAnswer × S
  | s, [] => ([], s)
  | s, c :: cs => ((run s c).1 :: (answers run (run s c).2 cs).1, (answers run (run s c).2 cs).2)

theorem LevelCall.run_toList (q : Ring ℕ maxTasks) (c : LevelCall) :
    (c.run q).1 = (c.runList q.toList).1 ∧ (c.run q).2.toList = (c.runList q.toList).2 := by
  cases c with
  | enqueue t =>
    refine ⟨rfl, ?_⟩
    simp only [run, runList, Ring.length_toList]
    by_cases hroom : q.count < maxTasks
    · rw [if_pos hroom, Ring.toList_enqueue hroom]
    · rw [if_neg hroom, Ring.enqueue, dif_pos (not_lt.mp hroom)]
  | dequeue => exact ⟨congrArg LevelAnswer.task q.dequeue_eq.1, q.dequeue_eq.2⟩
  | remove t =>
    refine ⟨congrArg LevelAnswer.found ?_, q.toList_remove t⟩
    rw [Bool.eq_iff_iff, Ring.remove_eq_true, decide_eq_true_eq]

theorem answers_toList (cs : List LevelCall) : ∀ q : Ring ℕ maxTasks,
    (answers LevelCall.run q cs).1 = (answers LevelCall.runList q.toList cs).1 ∧
      (answers LevelCall.run q cs).2.toList = (answers LevelCall.runList q.toList cs).2 := by
  induction cs with
  | nil => exact fun _ => ⟨rfl, rfl⟩
  | cons c cs ih =>
    intro q
    obtain ⟨hanswer, hlist⟩ := c.run_toList q
    obtain ⟨hanswers, hend⟩ := ih (c.run q).2
    simp only [answers]
    rw [hanswer, ← hlist]
    exact ⟨congrArg _ hanswers, hend⟩

/-- **A level is a bounded list**: from empty on, every sequence of calls gets the answers of the
list, and leaves the entries of the list from `head` on. -/
theorem level_refines_list (slots : ℕ → ℕ) (cs : List LevelCall) :
    let q := answers LevelCall.run (.empty slots maxTasks_pos) cs
    let l := answers LevelCall.runList [] cs
    q.1 = l.1 ∧
      (List.range q.2.count).map (fun j => q.2.slots ((q.2.head + j) % 64)) = l.2 ∧
      q.2.tail = (q.2.head + q.2.count) % 64 ∧ q.2.count ≤ 64 := by
  intro q l
  obtain ⟨hanswers, hlist⟩ := answers_toList cs (.empty slots maxTasks_pos)
  rw [Ring.toList, window, ← List.range_eq_range'] at hlist
  exact ⟨hanswers, hlist, q.2.tail_eq, q.2.count_le⟩

/-! ## The edits of the queues -/

section Edits

variable {s : Sys} {t : ℕ} {f : Task → Task}

@[simp] theorem tasks_modifyTask_self (s : Sys) (t : ℕ) (f : Task → Task) :
    (s.modifyTask t f).tasks t = f (s.tasks t) :=
  update_self ..

@[simp] theorem tasks_setState_self (s : Sys) (t : ℕ) (x : TaskState) :
    (s.setState t x).tasks t = { s.tasks t with state := x } :=
  tasks_modifyTask_self s t _

@[simp] theorem tasks_mlfqEnqueue (s : Sys) (l t : ℕ) : (s.mlfqEnqueue l t).tasks = s.tasks := rfl

@[simp] theorem tasks_mlfqRemove (s : Sys) (l t : ℕ) : (s.mlfqRemove l t).tasks = s.tasks := rfl

@[simp] theorem tasks_mlfqRemoveAll (s : Sys) (t : ℕ) : (s.mlfqRemoveAll t).tasks = s.tasks := rfl

@[simp] theorem tasks_signalGlobalsReset (s : Sys) : s.signalGlobalsReset.tasks = s.tasks := rfl

theorem tasks_modifyTask_of_ne (s : Sys) {u : ℕ} (h : u ≠ t) (f : Task → Task) :
    (s.modifyTask t f).tasks u = s.tasks u :=
  update_of_ne h ..

theorem tasks_setState_of_ne (s : Sys) {u : ℕ} (h : u ≠ t) (x : TaskState) :
    (s.setState t x).tasks u = s.tasks u :=
  tasks_modifyTask_of_ne s h _

theorem level_mlfqEnqueue (h : (s.mlfq l).count < maxTasks) (t l' : ℕ) :
    (s.mlfqEnqueue l t).level l' = s.level l' ++ if l' = l then [t] else [] := by
  unfold Sys.level Sys.mlfqEnqueue
  by_cases he : l' = l
  · subst he
    rw [if_pos rfl]
    show (update s.mlfq l' ((s.mlfq l').enqueue t) l').toList = _
    rw [update_self, Ring.toList_enqueue h]
  · rw [if_neg he, List.append_nil]
    exact congrArg Ring.toList (update_of_ne he ..)

theorem level_mlfqRemove (s : Sys) (l t l' : ℕ) :
    (s.mlfqRemove l t).level l' = if l' = l then (s.level l').erase t else s.level l' := by
  unfold Sys.level Sys.mlfqRemove
  by_cases he : l' = l
  · subst he
    rw [if_pos rfl]
    show (update s.mlfq l' ((s.mlfq l').remove t).2 l').toList = _
    rw [update_self, Ring.toList_remove]
  · rw [if_neg he]
    exact congrArg Ring.toList (update_of_ne he ..)

theorem level_mlfqRemoveAll (s : Sys) (t : ℕ) (hl : l < mlfqLevels) :
    (s.mlfqRemoveAll t).level l = (s.level l).erase t := by
  unfold Sys.level Sys.mlfqRemoveAll
  rw [← Ring.toList_remove]
  exact congrArg Ring.toList (if_pos hl)

theorem QueueInv.not_queued (hi : QueueInv s) (h : (s.tasks t).state ≠ .ready)
    (hl : l < mlfqLevels) : t ∉ s.level l :=
  fun hm => h (hi.queued l hl t hm).2.1

theorem SchedInv.room (hi : SchedInv s) (ht : t < s.taskCount) (hl : l < mlfqLevels)
    (hnot : t ∉ s.level l) : (s.mlfq l).count < maxTasks := by
  have hsub : (s.level l).toFinset ⊆ (Finset.range maxTasks).erase t := by
    intro u hu
    rw [List.mem_toFinset] at hu
    have hlt := (hi.queued l hl u hu).1
    have hle := hi.count_le
    refine Finset.mem_erase.mpr ⟨fun h => hnot (h ▸ hu), Finset.mem_range.mpr (by omega)⟩
  have hcard := Finset.card_le_card hsub
  have hle := hi.count_le
  rw [List.toFinset_card_of_nodup (hi.nodup l hl), Finset.card_erase_of_mem
    (Finset.mem_range.mpr (by omega)), Finset.card_range] at hcard
  have hlen : (s.level l).length = (s.mlfq l).count := (s.mlfq l).length_toList
  have : 0 < maxTasks := maxTasks_pos
  omega

theorem SchedInv.enter (hi : SchedInv s) (ht : t < s.taskCount) (hnr : (s.tasks t).state ≠ .ready)
    {p : ℕ} (hf : (f (s.tasks t)).sched = (t, .ready, l, p)) (hl : l < mlfqLevels)
    (hp : p < mlfqLevels) : Moved s ((s.modifyTask t f).mlfqEnqueue l t) t (some l) := by
  have hnot : ∀ l' < mlfqLevels, t ∉ s.level l' := fun l' hl' => hi.not_queued hnr hl'
  have hself : ((s.modifyTask t f).mlfqEnqueue l t).tasks t = f (s.tasks t) :=
    tasks_modifyTask_self s t f
  rw [Task.sched, Prod.mk.injEq, Prod.mk.injEq, Prod.mk.injEq, ← hself] at hf
  obtain ⟨hid, hstate, hprio, hsaved⟩ := hf
  refine ⟨rfl, fun u hu => ?_, fun l' hl' => ?_, fun _ => hstate,
    fun _ => .inl (Option.some_ne_none l), fun l' h => hprio.trans (Option.some.inj h), hid,
    hprio ▸ hl, hsaved ▸ hp, hi.current_lt⟩
  · exact congrArg Task.sched (tasks_modifyTask_of_ne s hu f)
  · rw [level_mlfqEnqueue (s := s.modifyTask t f) (hi.room ht hl (hnot l hl))]
    rw [List.erase_of_not_mem (hnot l' hl')]
    refine congrArg₂ (· ++ ·) rfl ?_
    by_cases he : l' = l
    · rw [if_pos he, if_pos (congrArg some he.symm)]
    · rw [if_neg he, if_neg fun h => he (Option.some.inj h).symm]

theorem SchedInv.leave (hi : SchedInv s) (ht : t < s.taskCount)
    (hn : s'.taskCount = s.taskCount) (hother : ∀ u, u ≠ t → s'.tasks u = s.tasks u)
    (hst : (s'.tasks t).state ≠ .ready) (hself : (s'.tasks t).sched =
      ((s.tasks t).id, (s'.tasks t).state, (s.tasks t).priority, (s.tasks t).savedPriority))
    (hlevel : ∀ l < mlfqLevels, s'.level l = (s.level l).erase t)
    (hc : ∀ u, s'.currentTask = some u → u < s.taskCount) : Moved s s' t none := by
  obtain ⟨hid, hprio, hsaved⟩ : SlotOk t (s'.tasks t) := by
    obtain ⟨hid, -, hprio, hsaved⟩ :=
      Task.sched_inj (y := { s.tasks t with state := (s'.tasks t).state }) hself
    exact ⟨hid.trans (hi.id_eq t ht), hprio ▸ hi.prio_lt t ht, hsaved ▸ hi.saved_lt t ht⟩
  refine ⟨hn, fun u hu => congrArg Task.sched (hother u hu), fun l hl => ?_, fun h => absurd rfl h,
    fun h => absurd h hst, fun l h => (nomatch h), hid, hprio, hsaved, hc⟩
  rw [hlevel l hl, if_neg (Option.some_ne_none l).symm, List.append_nil]

theorem SchedInv.level_remove (hi : SchedInv s) (t : ℕ) (hl : l < mlfqLevels) :
    (s.mlfqRemove (s.tasks t).priority t).level l = (s.level l).erase t := by
  rw [level_mlfqRemove]
  by_cases he : l = (s.tasks t).priority
  · rw [if_pos he]
  · rw [if_neg he, List.erase_of_not_mem fun hm => he (hi.queued l hl t hm).2.2.symm]

end Edits

/-! ## The operations -/

def Keeps (s s' : Sys) : Prop := SchedInv s' ∧ s'.taskCount = s.taskCount

section Operations

variable {s : Sys} {t : ℕ}

theorem SchedInv.keeps (hi : SchedInv s) : Keeps s s := ⟨hi, rfl⟩

theorem Keeps.trans {s₁ s₂ : Sys} (h : Keeps s s₁) (h' : Keeps s₁ s₂) : Keeps s s₂ :=
  ⟨h'.1, h'.2.trans h.2⟩

theorem SchedInv.keeps_moved (hi : SchedInv s) (ht : t < s.taskCount) {new : Option ℕ}
    (hm : Moved s s' t new) : Keeps s s' :=
  ⟨hi.moved ht hm, hm.count⟩

theorem SchedInv.keeps_moved_off (hi : SchedInv s) (ht : t < s.taskCount)
    {new : Option ℕ} (hm : Moved s s' t new) (c : Prop) [Decidable c] :
    Keeps s (if c then { s' with currentTask := none } else s') := by
  by_cases hc : c
  · rw [if_pos hc]
    exact hi.keeps_moved ht (hm.congr rfl rfl rfl fun u hu => (nomatch hu))
  · rw [if_neg hc]
    exact hi.keeps_moved ht hm

theorem SchedInv.edit (hi : SchedInv s) (t : ℕ) {f : Task → Task}
    (hf : ∀ x : Task, (f x).sched = x.sched) : Keeps s (s.modifyTask t f) := by
  refine ⟨hi.congr (fun u _ => ?_) rfl rfl hi.current_lt, rfl⟩
  by_cases hu : u = t
  · rw [hu, tasks_modifyTask_self, hf]
  · rw [tasks_modifyTask_of_ne s hu]

theorem keeps_foldl {f : Sys → ℕ → Sys} (l : List ℕ) :
    ∀ s, SchedInv s →
      (∀ s', SchedInv s' → s'.taskCount = s.taskCount → ∀ i ∈ l, Keeps s' (f s' i)) →
      Keeps s (l.foldl f s) := by
  induction l with
  | nil =>
    intro s hi _
    exact hi.keeps
  | cons i l ih =>
    intro s hi hf
    have h := hf s hi rfl i List.mem_cons_self
    refine h.trans (ih (f s i) h.1 fun s' hi' hn j hj => ?_)
    exact hf s' hi' (hn.trans h.2) j (List.mem_cons_of_mem i hj)

variable (hi : SchedInv s)

include hi

theorem SchedInv.schedWake (ht : t < s.taskCount) : Keeps s (schedWake s t) := by
  unfold Proc.schedWake
  rw [if_neg (by rw [hi.id_eq t ht]; omega)]
  by_cases hb : (s.tasks t).state = .blocked
  · rw [if_pos hb]
    refine hi.keeps_moved ht (hi.enter ht (by rw [hb]; decide) (p := (s.tasks t).savedPriority) ?_
      (hi.saved_lt t ht) (hi.saved_lt t ht))
    show ((s.tasks t).id, _, _, _) = _
    rw [hi.id_eq t ht]
  · rw [if_neg hb]
    exact hi.keeps

theorem SchedInv.wakeWhere (p : Task → Bool) : Keeps s (wakeWhere p s) := by
  refine keeps_foldl _ s hi fun s' hi' hn i hmem => ?_
  have hlt : i < s'.taskCount := hn ▸ List.mem_range.mp hmem
  unfold wakeRound
  by_cases h : (s'.tasks i).state = .blocked ∧ p (s'.tasks i)
  · rw [if_pos h]
    exact hi'.schedWake hlt
  · rw [if_neg h]
    exact hi'.keeps

theorem SchedInv.schedTick : Keeps s (schedTick s) := by
  unfold Proc.schedTick
  rcases hc : s.currentTask with _ | t
  · exact hi.keeps
  · have ht := hi.current_lt t hc
    by_cases hr : (s.tasks t).state = .running
    · simp only [if_pos hr]
      -- counting the tick changes nothing the queues depend on
      set s₁ := s.modifyTask t fun task => { task with ticksLeft := task.ticksLeft - 1 } with hs₁
      have hi₁ : SchedInv s₁ := (hi.edit t (f := fun task =>
        { task with ticksLeft := task.ticksLeft - 1 }) fun _ => rfl).1
      have hr₁ : (s₁.tasks t).state = .running := by
        rw [hs₁, tasks_modifyTask_self]
        exact hr
      by_cases hz : (s₁.tasks t).ticksLeft ≤ 0
      · rw [if_pos hz]
        rw [tasks_modifyTask_self]
        have hlt := hi₁.prio_lt t ht
        have hm := hi₁.enter (f := fun task => { task with
            priority := if task.priority < mlfqLevels - 1 then task.priority + 1 else task.priority
            state := TaskState.ready }) ht (by rw [hr₁]; decide) (p := (s₁.tasks t).savedPriority)
          (l := if (s₁.tasks t).priority < mlfqLevels - 1 then (s₁.tasks t).priority + 1
            else (s₁.tasks t).priority) (by
              show ((s₁.tasks t).id, _, _, _) = _
              rw [hi₁.id_eq t ht]) (by split <;> omega) (hi₁.saved_lt t ht)
        exact Keeps.trans (⟨hi₁, rfl⟩ : Keeps s s₁)
          (hi₁.keeps_moved ht (hm.congr rfl rfl rfl fun u hu => (nomatch hu)))
      · rw [if_neg hz]
        exact ⟨hi₁, rfl⟩
    · simp only [if_neg hr]
      exact hi.keeps

theorem SchedInv.schedRequeue (ht : t < s.taskCount) :
    Keeps s (schedRequeue s t) := by
  unfold Proc.schedRequeue
  by_cases hr : (s.tasks t).state = .running
  · rw [if_pos hr]
    refine hi.keeps_moved_off ht (hi.enter ht (by rw [hr]; decide)
      (p := (s.tasks t).savedPriority) ?_ (hi.prio_lt t ht) (hi.saved_lt t ht)) _
    show ((s.tasks t).id, _, _, _) = _
    rw [hi.id_eq t ht]
  · rw [if_neg hr]
    exact hi.keeps

theorem SchedInv.schedBlockAndSwitch (kind : WaitKind) (arg : Word) :
    Keeps s (schedBlockAndSwitch s kind arg) := by
  unfold Proc.schedBlockAndSwitch
  rcases hc : s.currentTask with _ | t
  · exact hi.keeps
  · have ht := hi.current_lt t hc
    dsimp only
    refine hi.keeps_moved ht (hi.leave ht rfl (fun u hu => ?_) ?_ ?_
      (fun l hl => hi.level_remove t hl) ?_)
    · rw [tasks_mlfqRemove, tasks_modifyTask_of_ne s hu]
    · simp
    · simp [Task.sched]
    · exact hi.current_lt

theorem SchedInv.schedBlock (ht : t < s.taskCount) :
    Keeps s (schedBlock s t) := by
  unfold Proc.schedBlock
  rw [if_neg (by rw [hi.id_eq t ht]; omega)]
  refine hi.keeps_moved_off ht (show Moved s _ _ none from ?_) _
  refine hi.leave ht rfl (fun u hu => tasks_setState_of_ne s hu _) ?_ ?_
    (fun l hl => hi.level_remove t hl) hi.current_lt
  · simp
  · simp [Task.sched]

theorem SchedInv.schedKill (id : ℕ) : Keeps s (schedKill s id) := by
  unfold Proc.schedKill
  by_cases hlt : s.taskCount ≤ id
  · rw [if_pos hlt]
    exact hi.keeps
  · rw [if_neg hlt]
    have ht : id < s.taskCount := by omega
    by_cases hz : (s.tasks id).state = .zombie
    · rw [if_pos hz]
      exact hi.keeps
    · rw [if_neg hz]
      refine hi.keeps_moved_off ht (show Moved s _ _ none from ?_) _
      refine hi.leave ht rfl (fun u hu => ?_) ?_ ?_ (fun l hl => hi.level_remove id hl)
        hi.current_lt
      · rw [tasks_setState_of_ne _ hu, tasks_mlfqRemove, tasks_signalGlobalsReset,
          tasks_modifyTask_of_ne s hu]
      · simp
      · simp [Task.sched]

variable (wk : ℕ → WaitKind → Word → Bool)

theorem SchedInv.vfsFdCloseAll (pid : ℤ) :
    Keeps s (vfsFdCloseAll wk pid s) := by
  unfold Proc.vfsFdCloseAll
  by_cases hp : pid ≤ 0
  · rw [if_pos hp]
    exact hi.keeps
  · rw [if_neg hp]
    refine keeps_foldl _ s hi fun s' hi' _ i _ => ?_
    by_cases ho : s'.fds i = some pid
    · simp only [if_pos ho]
      have h := hi'.wakeWhere fun t => wk i t.waitKind t.waitArg
      exact ⟨h.1.congr (fun _ _ => rfl) rfl rfl h.1.current_lt, h.2⟩
    · simp only [if_neg ho]
      exact hi'.keeps

theorem SchedInv.schedMarkExited (ht : t < s.taskCount) (code : ℤ) : Keeps s (schedMarkExited wk s t code) := by
  unfold Proc.schedMarkExited
  have hm : Moved s ((((s.modifyTask t fun task =>
      { task with exitCode := code, itimerDeadline := 0, itimerInterval := 0
        }).signalGlobalsReset).mlfqRemoveAll t).setState t .zombie) t none := by
    refine hi.leave ht rfl (fun u hu => ?_) ?_ ?_
      (fun l hl => level_mlfqRemoveAll (Sys.signalGlobalsReset _) t hl) hi.current_lt
    · rw [tasks_setState_of_ne _ hu, tasks_mlfqRemoveAll, tasks_signalGlobalsReset,
        tasks_modifyTask_of_ne s hu]
    · simp
    · simp [Task.sched]
  have h := hi.keeps_moved ht hm
  exact h.trans (h.1.vfsFdCloseAll wk _)

theorem SchedInv.reap (ht : t < s.taskCount) (hz : (s.tasks t).state = .zombie) :
    Keeps s (s.setState t .reaped) := by
  refine hi.keeps_moved ht (hi.leave ht rfl (fun u hu => tasks_setState_of_ne s hu _) ?_ ?_
    (fun l hl => ?_) hi.current_lt)
  · simp
  · simp [Task.sched]
  · exact (List.erase_of_not_mem (hi.not_queued (by rw [hz]; decide) hl)).symm

theorem SchedInv.schedForceReap (pid : ℕ) : Keeps s (schedForceReap s pid) := by
  unfold Proc.schedForceReap
  by_cases hp : pid = 0
  · rw [if_pos hp]
    exact hi.keeps
  · rw [if_neg hp]
    rcases hf : (List.range s.taskCount).find? _ with _ | i
    · exact hi.keeps
    · have hz := List.find?_some hf
      rw [decide_eq_true_eq] at hz
      exact hi.reap (List.mem_range.mp (List.mem_of_find?_eq_some hf)) hz.2

/-! ### Signals and timers -/

theorem SchedInv.terminateBy (ht : t < s.taskCount) (sig : ℕ) : Keeps s (terminateBy wk s t sig) := by
  unfold Proc.terminateBy
  by_cases hc : s.currentTask = some t
  · rw [if_pos hc]
    have h := hi.schedMarkExited wk ht sig
    exact ⟨h.1.congr (fun _ _ => rfl) rfl rfl h.1.current_lt, h.2⟩
  · rw [if_neg hc]
    exact hi.schedKill _

theorem SchedInv.killOneTask (ht : t < s.taskCount) (sig : ℕ) : Keeps s (killOneTask wk s t sig) := by
  have hpend := hi.edit t (f := fun task =>
    { task with sigPending := task.sigPending ||| sigBit sig }) fun _ => rfl
  unfold Proc.killOneTask
  dsimp only
  split_ifs
  case pos => exact hi.keeps
  case pos => exact hi.terminateBy wk ht sig
  case pos => exact hi.keeps
  case pos => exact hpend.trans (hpend.1.schedWake (hpend.2 ▸ ht))
  case neg => exact hpend
  case pos => exact hi.keeps
  case pos => exact hi.keeps
  case pos => exact hi.keeps
  case neg => exact hi.terminateBy wk ht sig

theorem SchedInv.timerRound (now : ℕ)
    (ht : t < s.taskCount) : Keeps s (timerRound wk now s t) := by
  unfold Proc.timerRound
  by_cases he : (s.tasks t).expired now
  · rw [if_pos he]
    have h := hi.edit t (f := Task.rearmed) fun _ => rfl
    exact h.trans (h.1.killOneTask wk (h.2 ▸ ht) 14)
  · rw [if_neg he]
    exact hi.keeps

theorem SchedInv.deadlineRound (now : ℕ) (ht : t < s.taskCount) :
    Keeps s (deadlineRound now s t) := by
  have hwake := hi.schedWake ht
  have hsame := hi.keeps
  unfold Proc.deadlineRound
  dsimp only
  split_ifs <;> assumption

theorem SchedInv.pollTimeout (now : ℕ)
    (ht : t < s.taskCount) : Keeps s (pollTimeout wk now s t) := by
  unfold Proc.pollTimeout
  by_cases hdead : (s.tasks t).state = .zombie ∨ (s.tasks t).state = .reaped
  · rw [if_pos hdead]
    exact hi.edit t fun _ => rfl
  · rw [if_neg hdead]
    have h := hi.timerRound wk now ht
    exact h.trans (h.1.deadlineRound now (h.2 ▸ ht))

theorem SchedInv.schedPollTimeouts (now : ℕ) :
    Keeps s (schedPollTimeouts wk now s) :=
  keeps_foldl _ s hi fun _ hi' hn _ hmem => hi'.pollTimeout wk now (hn ▸ List.mem_range.mp hmem)

/-! ### Picking -/

def Sys.runHead (s : Sys) (l t : ℕ) : Sys :=
  ({ s with mlfq := update s.mlfq l (s.mlfq l).dequeue.2 } : Sys).run t

omit hi in
theorem level_runHead {rest : List ℕ} (hl : s.level l = t :: rest) (j : ℕ) :
    (s.runHead l t).level j = if j = l then rest else s.level j := by
  have hpos : 0 < (s.mlfq l).count := by
    rw [← Ring.length_toList]
    exact List.length_pos_of_ne_nil fun h => List.cons_ne_nil t rest (hl.symm.trans h)
  obtain ⟨a, r, hdeq, hcons⟩ := Ring.dequeue_of_pos hpos
  show (update s.mlfq l (s.mlfq l).dequeue.2 j).toList = _
  by_cases hj : j = l
  · subst hj
    rw [if_pos rfl, update_self, hdeq]
    exact (List.cons.inj (hcons.symm.trans hl)).2
  · rw [if_neg hj, update_of_ne hj]
    rfl

theorem SchedInv.nextScan : ∀ n l, l + n = mlfqLevels →
    (∀ j < l, s.level j = []) →
    (∃ k < mlfqLevels, ∃ t rest, (∀ j < k, s.level j = []) ∧ s.level k = t :: rest ∧
      nextScan n l s = (some t, s.runHead k t)) ∨
    ((∀ j < mlfqLevels, s.level j = []) ∧ nextScan n l s = (none, s)) := by
  intro n
  induction n with
  | zero =>
    intro l hl hempty
    rw [Nat.add_zero] at hl
    exact .inr ⟨hl ▸ hempty, rfl⟩
  | succ n ih =>
    intro l hl hempty
    by_cases hc : (s.mlfq l).count = 0
    · have hnil : s.level l = [] := by
        rw [← List.length_eq_zero_iff]
        exact (s.mlfq l).length_toList.trans hc
      have hstep : Proc.nextScan (n + 1) l s = Proc.nextScan n (l + 1) s := by
        rw [Proc.nextScan, show (s.mlfq l).dequeue = (none, s.mlfq l) from dif_pos hc]
      rw [hstep]
      refine ih (l + 1) (by omega) fun j hj => ?_
      rcases Nat.lt_succ_iff_lt_or_eq.mp hj with hj | rfl
      · exact hempty j hj
      · exact hnil
    · obtain ⟨t, r, hdeq, hcons⟩ := Ring.dequeue_of_pos (Nat.pos_of_ne_zero hc)
      have hlt : l < mlfqLevels := by omega
      have hlist : s.level l = t :: r.toList := hcons
      have hready := (hi.queued l hlt t (hlist ▸ List.mem_cons_self)).2.1
      refine .inl ⟨l, hlt, t, r.toList, hempty, hlist, ?_⟩
      rw [Proc.nextScan, hdeq]
      dsimp only
      rw [if_pos hready, Sys.runHead, hdeq]

theorem SchedInv.runHead (hl : l < mlfqLevels) {rest : List ℕ}
    (hlist : s.level l = t :: rest) : Keeps s (s.runHead l t) := by
  obtain ⟨ht, -, hprio⟩ := hi.queued l hl t (hlist ▸ List.mem_cons_self)
  refine hi.keeps_moved ht (hi.leave ht rfl (fun u hu => ?_) ?_ ?_ (fun j hj => ?_) fun u hu => ?_)
  · exact update_of_ne hu ..
  · simp [Sys.runHead, Sys.run]
  · simp [Sys.runHead, Sys.run, Task.sched]
  · rw [level_runHead hlist]
    by_cases he : j = l
    · rw [if_pos he, he, hlist, List.erase_cons_head]
    · rw [if_neg he, List.erase_of_not_mem fun hm => ?_]
      exact he ((hi.queued j hj t hm).2.2.symm.trans hprio)
  · exact Option.some.inj hu ▸ ht

theorem SchedInv.runIdle (hempty : ∀ l < mlfqLevels, s.level l = []) :
    Keeps s { s.setState idleTask .running with currentTask := some idleTask } := by
  refine hi.keeps_moved hi.count_pos (hi.leave hi.count_pos rfl
    (fun u hu => tasks_setState_of_ne s hu _) ?_ ?_ (fun l hl => ?_) fun u hu => ?_)
  · exact ne_of_eq_of_ne (congrArg Task.state (tasks_setState_self s idleTask .running)) nofun
  · exact congrArg Task.sched (tasks_setState_self s idleTask .running)
  · rw [hempty l hl]
    exact hempty l hl
  · exact Option.some.inj hu ▸ hi.count_pos

theorem SchedInv.schedNext_eq :
    (∃ k < mlfqLevels, ∃ t rest, (∀ j < k, s.level j = []) ∧ s.level k = t :: rest ∧
      schedNext s = (some t, s.runHead k t)) ∨
    ((∀ j < mlfqLevels, s.level j = []) ∧
      schedNext s = if (s.tasks idleTask).state = .ready then
        (some idleTask, { s.setState idleTask .running with currentTask := some idleTask })
        else (none, s)) := by
  rcases hi.nextScan mlfqLevels 0 (Nat.zero_add _) (fun j hj => absurd hj (Nat.not_lt_zero j))
    with ⟨k, hk, t, rest, hempty, hlist, hscan⟩ | ⟨hempty, hscan⟩
  · refine .inl ⟨k, hk, t, rest, hempty, hlist, ?_⟩
    have ht := (hi.queued k hk t (hlist ▸ List.mem_cons_self)).1
    unfold Proc.schedNext
    rw [hscan]
    exact congrArg (fun i => (some i, s.runHead k t)) (hi.id_eq t ht)
  · refine .inr ⟨hempty, ?_⟩
    unfold Proc.schedNext
    rw [hscan]
    dsimp only
    rw [hi.id_eq idleTask hi.count_pos]

theorem SchedInv.schedNext : Keeps s (schedNext s).2 := by
  rcases hi.schedNext_eq with ⟨k, hk, t, rest, -, hlist, heq⟩ | ⟨hempty, heq⟩
  · rw [heq]
    exact hi.runHead hk hlist
  · rw [heq]
    by_cases hr : (s.tasks idleTask).state = .ready
    · rw [if_pos hr]
      exact hi.runIdle hempty
    · rw [if_neg hr]
      exact hi.keeps

theorem SchedInv.nextIsHead : NextIsHead s := by
  rcases hi.schedNext_eq with ⟨k, hk, t, rest, hempty, hlist, heq⟩ | ⟨hempty, heq⟩
  · refine ⟨fun l hl hbelow u rest' hl' => ?_, fun hall => ?_⟩
    · -- the first nonempty level is one level
      have hkl : k = l := by
        rcases Nat.lt_trichotomy k l with h | h | h
        · exact absurd (hlist.symm.trans (hbelow k h)) (List.cons_ne_nil t rest)
        · exact h
        · exact absurd (hl'.symm.trans (hempty l h)) (List.cons_ne_nil u rest')
      subst hkl
      rw [heq, (List.cons.inj (hlist.symm.trans hl')).1]
    · exact absurd (hlist.symm.trans (hall k hk)) (List.cons_ne_nil t rest)
  · refine ⟨fun l hl _ u rest' hl' => ?_, fun _ => ?_⟩
    · exact absurd (hl'.symm.trans (hempty l hl)) (List.cons_ne_nil u rest')
    · rw [heq]
      by_cases hr : (s.tasks idleTask).state = .ready
      · exact .inl (by rw [if_pos hr])
      · exact .inr (by rw [if_neg hr])

/-! ### Starts -/

theorem SchedInv.extend (hlt : s.taskCount < maxTasks) {x : Task} {p : ℕ}
    (hx : x.sched = (s.taskCount, .ready, l, p)) (hl : l < mlfqLevels) (hp : p < mlfqLevels) :
    SchedInv (({ s with
      tasks := update s.tasks s.taskCount x
      taskCount := s.taskCount + 1 } : Sys).mlfqEnqueue l s.taskCount) := by
  -- the slot enters the table dead, and is then made ready
  set s₁ : Sys := { s with
    tasks := update s.tasks s.taskCount { x with state := .zombie }
    taskCount := s.taskCount + 1 } with hs₁
  have hself : s₁.tasks s.taskCount = { x with state := .zombie } := update_self ..
  have hold : ∀ u < s.taskCount, s₁.tasks u = s.tasks u := fun u hu =>
    update_of_ne (Nat.ne_of_lt hu) ..
  have hcases : ∀ u < s₁.taskCount, u < s.taskCount ∨ u = s.taskCount := fun u hu =>
    Nat.lt_succ_iff_lt_or_eq.mp hu
  have hi₁ : SchedInv s₁ := by
    refine .of_slots ⟨fun l hl u hu => ?_, hi.nodup, fun u hu hidle hready => ?_⟩ (Nat.succ_pos _)
      hlt (fun u hu => ?_) fun u hu => Nat.lt_succ_of_lt (hi.current_lt u hu)
    · have h := hi.queued l hl u hu
      rw [hold u h.1]
      exact ⟨Nat.lt_succ_of_lt h.1, h.2⟩
    · rcases hcases u hu with hu | rfl
      · rw [hold u hu] at hready ⊢
        exact hi.ready u hu hidle hready
      · rw [hself] at hready
        cases hready
    · rcases hcases u hu with hu | rfl
      · rw [hold u hu]
        exact hi.slot hu
      · rw [hself]
        simp only [Task.sched, Prod.mk.injEq] at hx
        exact ⟨hx.1, hx.2.2.1 ▸ hl, hx.2.2.2 ▸ hp⟩
  have hm := hi₁.enter (t := s.taskCount) (f := fun _ => x) (Nat.lt_succ_self _)
    (by rw [hself]; exact nofun) hx hl hp
  refine (hi₁.moved (Nat.lt_succ_self _) hm).congr (fun u _ => ?_) rfl rfl ?_
  · refine congrArg Task.sched (congrFun ?_ u)
    exact (update_idem ..).symm
  · exact fun u hu => Nat.lt_succ_of_lt (hi.current_lt u hu)

theorem SchedInv.schedAdd (task : Task) : SchedInv (schedAdd s task) := by
  unfold Proc.schedAdd
  by_cases hfull : maxTasks ≤ s.taskCount
  · rw [if_pos hfull]
    exact hi
  · rw [if_neg hfull]
    exact hi.extend (by omega) rfl (show 2 < mlfqLevels by decide) (show 2 < mlfqLevels by decide)

omit hi in
theorem reusable_spec (h : s.reusable = some t) :
    t < s.taskCount ∧ (s.tasks t).state = .reaped := by
  refine ⟨List.mem_range.mp (List.mem_of_find?_eq_some h), ?_⟩
  have hr := List.find?_some h
  rwa [decide_eq_true_eq] at hr

theorem SchedInv.wireStd : SchedInv s.wireStd :=
  hi.congr (fun _ _ => rfl) rfl rfl hi.current_lt

theorem SchedInv.spawnReused (h : s.reusable = some t) :
    SchedInv (schedSpawnProcess s true).2 := by
  obtain ⟨ht, hreap⟩ := reusable_spec h
  have hm := hi.enter (f := fun task => task.spawned t) ht (by rw [hreap]; decide) rfl
    (show 2 < mlfqLevels by decide) (show 2 < mlfqLevels by decide)
  unfold Proc.schedSpawnProcess
  rw [h]
  exact SchedInv.wireStd ((hi.moved ht hm).congr (fun _ _ => rfl) rfl rfl hi.current_lt)

theorem SchedInv.spawnFresh (h : s.reusable = none) (kstack : Bool) :
    SchedInv (schedSpawnProcess s kstack).2 := by
  unfold Proc.schedSpawnProcess
  rw [h]
  dsimp only
  by_cases hfull : maxTasks ≤ s.taskCount
  · rw [if_pos hfull]
    exact hi
  · rw [if_neg hfull]
    cases kstack with
    | true =>
      have hx := hi.extend (x := (s.tasks s.taskCount).spawned s.taskCount) (by omega) rfl
        (show 2 < mlfqLevels by decide) (show 2 < mlfqLevels by decide)
      refine SchedInv.wireStd (hx.congr (fun _ _ => rfl) rfl rfl ?_)
      exact fun u hu => Nat.lt_succ_of_lt (hi.current_lt u hu)
    | false =>
      -- the slot that was written is not part of the table
      refine hi.congr (fun u hu => congrArg Task.sched ?_) rfl rfl hi.current_lt
      exact update_of_ne (Nat.ne_of_lt hu) ..

omit hi in
theorem schedSpawnProcess_failed (h : s.reusable = some t) : (schedSpawnProcess s false).2 =
    (s.modifyTask t fun task => task.spawned t).signalGlobalsReset := by
  unfold Proc.schedSpawnProcess
  rw [h]
  rfl

theorem SchedInv.spawnIdle (h : s.reusable = some idleTask) :
    SchedInv (schedSpawnProcess s false).2 := by
  obtain ⟨ht, hreap⟩ := reusable_spec h
  rw [schedSpawnProcess_failed h]
  have hself : (s.modifyTask idleTask fun task => task.spawned idleTask).signalGlobalsReset.tasks
      idleTask = (s.tasks idleTask).spawned idleTask := by simp
  suffices hm : Moved s _ idleTask none from hi.moved ht hm
  have hslot : SlotOk idleTask ((s.tasks idleTask).spawned idleTask) :=
    ⟨rfl, show 2 < mlfqLevels by decide, show 2 < mlfqLevels by decide⟩
  rw [← hself] at hslot
  refine ⟨rfl, fun u hu => ?_, fun l hl => ?_, fun h => absurd rfl h, fun _ => .inr rfl,
    fun l h => (nomatch h), hslot.id_eq, hslot.prio_lt, hslot.saved_lt, hi.current_lt⟩
  · exact congrArg Task.sched (update_of_ne hu ..)
  · rw [List.erase_of_not_mem (hi.not_queued (by rw [hreap]; decide) hl),
      if_neg (Option.some_ne_none l).symm, List.append_nil]
    rfl

theorem SchedInv.spawn_loses (h : s.reusable = some t) (hidle : t ≠ idleTask) :
    ¬ QueueInv (schedSpawnProcess s false).2 := by
  obtain ⟨ht, hreap⟩ := reusable_spec h
  rw [schedSpawnProcess_failed h]
  intro hq
  have hself : (s.modifyTask t fun task => task.spawned t).signalGlobalsReset.tasks t =
      (s.tasks t).spawned t := update_self ..
  obtain ⟨hlt, hmem⟩ := hq.ready t ht hidle (congrArg Task.state hself)
  exact hi.not_queued (by rw [hreap]; decide) hlt hmem

end Operations

/-! ## Runs -/

inductive Op where
  | add (task : Task)
  | spawn (kstack : Bool)
  | next
  | tick
  | requeue (t : ℕ)
  | block (t : ℕ)
  | blockAndSwitch (kind : WaitKind) (arg : Word)
  /-- The main loop has switched to `t`, which it has picked. -/
  | afterSwitch (t : ℕ)
  | wake (t : ℕ)
  | wakeCond (kind : WaitKind) (arg : Word)
  | wakeKbdAll
  | wakeSelectAll
  | wakeWaitingParent (child : ℕ)
  | pollSignals
  | pollTimeouts (wk : ℕ → WaitKind → Word → Bool) (now : ℕ)
  /-- `kill_one_task`. -/
  | send (wk : ℕ → WaitKind → Word → Bool) (t sig : ℕ)
  | kill (id : ℕ)
  | markExited (wk : ℕ → WaitKind → Word → Bool) (t : ℕ) (code : ℤ)
  /-- `wait4` reaps a zombie. -/
  | reap (t : ℕ)
  | forceReap (pid : ℕ)

def Op.step (s : Sys) : Op → Option Sys
  | .add task => some (schedAdd s task)
  | .spawn kstack => some (schedSpawnProcess s kstack).2
  | .next => some (schedNext s).2
  | .tick => some (schedTick s)
  | .requeue t => if t < s.taskCount then some (schedRequeue s t) else none
  | .block t => if t < s.taskCount then some (schedBlock s t) else none
  | .blockAndSwitch kind arg => some (schedBlockAndSwitch s kind arg)
  | .afterSwitch t =>
    if t < s.taskCount ∧ (s.tasks t).state = .running then some (schedAfterSwitch s t) else none
  | .wake t => if t < s.taskCount then some (schedWake s t) else none
  | .wakeCond kind arg => some (schedWakeCond kind arg s)
  | .wakeKbdAll => some (schedWakeKbdAll s)
  | .wakeSelectAll => some (schedWakeSelectAll s)
  | .wakeWaitingParent child => some (schedWakeWaitingParent child s)
  | .pollSignals => some (schedPollSignals s)
  | .pollTimeouts wk now => some (schedPollTimeouts wk now s)
  | .send wk t sig => if t < s.taskCount then some (killOneTask wk s t sig) else none
  | .kill id => some (schedKill s id)
  | .markExited wk t code => if t < s.taskCount then some (schedMarkExited wk s t code) else none
  | .reap t =>
    if t < s.taskCount ∧ (s.tasks t).state = .zombie then some (s.setState t .reaped) else none
  | .forceReap pid => some (schedForceReap s pid)

/-- A call of `sched_spawn_process` that reuses a slot gets a kernel stack. -/
def StackForReuse (s : Sys) (op : Op) : Prop :=
  op = .spawn false → ∀ t, s.reusable = some t → t = idleTask

theorem SchedInv.schedSpawnProcess (hi : SchedInv s) (kstack : Bool)
    (hok : StackForReuse s (.spawn kstack)) : SchedInv (schedSpawnProcess s kstack).2 := by
  rcases h : s.reusable with _ | t
  · exact hi.spawnFresh h kstack
  · cases kstack with
    | true => exact hi.spawnReused h
    | false => exact hi.spawnIdle (h.trans (congrArg some (hok rfl t h)))

theorem SchedInv.step {op : Op} (hi : SchedInv s) (hok : StackForReuse s op)
    (hstep : op.step s = some s') : SchedInv s' := by
  cases op with
  | add task => exact Option.some.inj hstep ▸ hi.schedAdd task
  | spawn kstack => exact Option.some.inj hstep ▸ hi.schedSpawnProcess kstack hok
  | next => exact Option.some.inj hstep ▸ hi.schedNext.1
  | tick => exact Option.some.inj hstep ▸ hi.schedTick.1
  | requeue t =>
    obtain ⟨ht, ⟨⟩⟩ := Option.ite_none_right_eq_some.mp hstep
    exact (hi.schedRequeue ht).1
  | block t =>
    obtain ⟨ht, ⟨⟩⟩ := Option.ite_none_right_eq_some.mp hstep
    exact (hi.schedBlock ht).1
  | blockAndSwitch kind arg => exact Option.some.inj hstep ▸ (hi.schedBlockAndSwitch kind arg).1
  | afterSwitch t =>
    obtain ⟨⟨_, hrun⟩, ⟨⟩⟩ := Option.ite_none_right_eq_some.mp hstep
    refine hi.congr (fun u _ => ?_) rfl rfl hi.current_lt
    by_cases hu : u = t
    · rw [hu]
      exact (congrArg Task.sched (tasks_setState_self s t .running)).trans
        (congrArg (fun st => (_, st, _, _)) hrun.symm)
    · exact congrArg Task.sched (tasks_setState_of_ne s hu _)
  | wake t =>
    obtain ⟨ht, ⟨⟩⟩ := Option.ite_none_right_eq_some.mp hstep
    exact (hi.schedWake ht).1
  | wakeCond kind arg => exact Option.some.inj hstep ▸ (hi.wakeWhere _).1
  | wakeKbdAll => exact Option.some.inj hstep ▸ (hi.wakeWhere _).1
  | wakeSelectAll => exact Option.some.inj hstep ▸ (hi.wakeWhere _).1
  | wakeWaitingParent child => exact Option.some.inj hstep ▸ (hi.wakeWhere _).1
  | pollSignals => exact Option.some.inj hstep ▸ (hi.wakeWhere _).1
  | pollTimeouts wk now => exact Option.some.inj hstep ▸ (hi.schedPollTimeouts wk now).1
  | send wk t sig =>
    obtain ⟨ht, ⟨⟩⟩ := Option.ite_none_right_eq_some.mp hstep
    exact (hi.killOneTask wk ht sig).1
  | kill id => exact Option.some.inj hstep ▸ (hi.schedKill id).1
  | markExited wk t code =>
    obtain ⟨ht, ⟨⟩⟩ := Option.ite_none_right_eq_some.mp hstep
    exact (hi.schedMarkExited wk ht code).1
  | reap t =>
    obtain ⟨⟨ht, hz⟩, ⟨⟩⟩ := Option.ite_none_right_eq_some.mp hstep
    exact (hi.reap ht hz).1
  | forceReap pid => exact Option.some.inj hstep ▸ (hi.schedForceReap pid).1

theorem schedInv_init (s : Sys) : SchedInv (schedInit s) := by
  have hlevel : ∀ l < mlfqLevels, (schedInit s).level l = [] := by
    intro l hl
    show (if l < mlfqLevels then _ else _ : Ring ℕ maxTasks).toList = []
    rw [if_pos hl]
    rfl
  have hidle : (schedInit s).tasks idleTask = (s.tasks idleTask).cleared.idle := rfl
  have hlt : ∀ t < (schedInit s).taskCount, t = idleTask := fun t ht => Nat.lt_one_iff.mp ht
  refine .of_slots ⟨fun l hl t ht => ?_, fun l hl => ?_, fun t ht hne => absurd (hlt t ht) hne⟩
    Nat.one_pos (show 1 ≤ maxTasks by decide) (fun t ht => ?_) fun t h => (nomatch h)
  · rw [hlevel l hl] at ht
    exact absurd ht List.not_mem_nil
  · rw [hlevel l hl]
    exact List.nodup_nil
  · rw [hlt t ht, hidle]
    exact ⟨rfl, show mlfqLevels - 1 < mlfqLevels by decide,
      show mlfqLevels - 1 < mlfqLevels by decide⟩

/-- **The run queues.**  After `sched_init` the queues hold exactly the ready tasks and `sched_next`
returns the head of the highest nonempty level; a run of operations keeps this at every step exactly
if no spawn in it reuses a slot and then gets no kernel stack. -/
theorem runQueue_iff (s : Sys) {ops : List Op} {s' : Sys}
    (hrun : Run Op.step (fun _ _ => True) (schedInit s) ops s') :
    (QueueInv (schedInit s) ∧ NextIsHead (schedInit s)) ∧
      (Run Op.step (fun s op => ∀ m, op.step s = some m → QueueInv m ∧ NextIsHead m)
          (schedInit s) ops s' ↔
        Run Op.step StackForReuse (schedInit s) ops s') := by
  have hsafe : ∀ s, SchedInv s → QueueInv s ∧ NextIsHead s := fun _ hi =>
    ⟨hi.toQueueInv, hi.nextIsHead⟩
  refine ⟨hsafe _ (schedInv_init s), Run.safe_iff hsafe (fun _ _ _ hi hok hstep =>
    hi.step hok hstep) ?_ hrun (schedInv_init s)⟩
  intro s op m hi hbad hstep hP
  refine hbad fun hop t hreuse => by_contra fun hidle => ?_
  subst hop
  rw [← Option.some.inj hstep] at hP
  exact hi.spawn_loses hreuse hidle hP.1

def blankTask : Task :=
  { id := 0, named := false, hasFunc := false, state := .ready, priority := 0, timeSlice := 0
    ticksLeft := 0, savedPriority := 0, pid := 0, isUser := false, ppid := 0, exitCode := 0
    kctxValid := false, waitKind := .none, waitArg := 0, waitDeadline := 0, isFork := false
    altstackBase := 0, altstackSize := 0, altstackOnstack := false, sigHandler := fun _ => 0
    sigFlags := fun _ => 0, sigRestorer := fun _ => 0, sigPending := 0, sigBlocked := 0
    itimerDeadline := 0, itimerInterval := 0 }

def blankSys : Sys :=
  { tasks := fun _ => blankTask, mlfq := fun _ => .empty (fun _ => 0) maxTasks_pos, taskCount := 0
    currentTask := none, sig := .zero, exitRequest := false, fds := fun _ => none }

/-- A process is started, runs, is killed and reaped, and its slot is reused. -/
def reuseOps (kstack : Bool) : List Op := [.spawn true, .next, .kill 1, .reap 1, .spawn kstack]

theorem runQueue_iff_reuse :
    ∃ s, Run Op.step (fun s op => ∀ m, op.step s = some m → QueueInv m ∧ NextIsHead m)
      (schedInit blankSys) (reuseOps true) s := by
  refine ⟨_, (runQueue_iff blankSys (.cons trivial rfl (.cons trivial rfl (.cons trivial rfl
    (.cons trivial rfl (.cons trivial rfl (.nil _))))))).2.mpr ?_⟩
  exact .cons nofun rfl (.cons nofun rfl (.cons nofun rfl (.cons nofun rfl (.cons nofun rfl
    (.nil _)))))

/-- **When the reused slot gets no kernel stack it is ready, and no level holds it.** -/
theorem spawn_reused_without_stack :
    ∃ s, Run Op.step (fun _ _ => True) (schedInit blankSys) (reuseOps false) s ∧
      1 < s.taskCount ∧ (s.tasks 1).state = .ready ∧ (∀ l < mlfqLevels, s.level l = []) ∧
      ¬ QueueInv s := by
  refine ⟨_, .cons trivial rfl (.cons trivial rfl (.cons trivial rfl (.cons trivial rfl
    (.cons trivial rfl (.nil _))))), ?_, ?_, ?_, ?_⟩
  · decide
  · decide
  · decide
  · intro hq
    have h := hq.ready 1 (by decide) (by decide) (by decide)
    exact absurd h.2 (by decide)

end BananaOS.Proc
