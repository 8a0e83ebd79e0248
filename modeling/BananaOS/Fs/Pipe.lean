import BananaOS.Lib.SlotTable

/-!
# Pipes

The two pools of `pipe.c`: eight pipes, and sixteen file objects, one for each end of a pipe.  A pipe
counts its open ends, not the descriptors of an end: `pipe_close_op` takes one off whenever a
descriptor goes away.  When both counts are 0 the pipe is freed, and with it the file objects of both
ends; until then the file object of a closed end stays allocated.
-/

namespace BananaOS.Fs

open Function SlotTable

def maxPipes : ℕ := 8

def maxPipeFiles : ℕ := maxPipes * 2

structure Pipe where
  readers : ℕ
  writers : ℕ
  inUse : Bool

/-- A file object of the pool, with its `pipe_file_used`: the pipe in `private_data`, the end in
`f_type`. -/
structure PipeFile where
  used : Bool
  pipe : ℕ
  isRead : Bool

structure PipePool where
  pipes : ℕ → Pipe
  files : ℕ → PipeFile

def Pipe.ends (p : Pipe) (isRead : Bool) : ℕ := if isRead then p.readers else p.writers

/-- `pipe_alloc`; `mem` is whether there is a buffer for it. -/
def pipeAlloc (P : PipePool) (mem : Bool) : Option ℕ × PipePool :=
  match firstFree (fun p => (P.pipes p).inUse) 0 maxPipes with
  | none => (none, P)
  | some p =>
    if mem then (some p, { P with pipes := update P.pipes p ⟨0, 0, true⟩ }) else (none, P)

def pipeAllocFile (P : PipePool) (p : ℕ) (isRead : Bool) : Option ℕ × PipePool :=
  match firstFree (fun i => (P.files i).used) 0 maxPipeFiles with
  | none => (none, P)
  | some i => (some i, { P with files := update P.files i ⟨true, p, isRead⟩ })

def pipeFree (P : PipePool) (p : ℕ) : PipePool :=
  { P with pipes := update P.pipes p { P.pipes p with inUse := false } }

/-- `pipe_create_fds`, up to the descriptors: the file objects of the two ends. -/
def pipeCreate (P : PipePool) (mem : Bool) : Option (ℕ × ℕ) × PipePool :=
  match pipeAlloc P mem with
  | (none, P₁) => (none, P₁)
  | (some p, P₁) =>
    let rd := pipeAllocFile P₁ p true
    let wr := pipeAllocFile rd.2 p false
    match rd.1, wr.1 with
    | some r, some w =>
      (some (r, w), { wr.2 with pipes := update wr.2.pipes p ⟨1, 1, true⟩ })
    | some r, none =>
      let P₂ := { wr.2 with files := update wr.2.files r { wr.2.files r with used := false } }
      (none, pipeFree P₂ p)
    | none, _ => (none, pipeFree wr.2 p)

def Pipe.dropEnd (p : Pipe) (isRead : Bool) : Pipe :=
  if isRead then { p with readers := p.readers - 1 } else { p with writers := p.writers - 1 }

def pipeCloseOp (P : PipePool) (i : ℕ) : PipePool :=
  let id := (P.files i).pipe
  if id < maxPipes ∧ (P.pipes id).inUse = true then
    let p := (P.pipes id).dropEnd (P.files i).isRead
    if p.readers = 0 ∧ p.writers = 0 then
      { pipes := update P.pipes id { p with inUse := false }
        files := fun j =>
          if j < maxPipeFiles ∧ (P.files j).used = true ∧ (P.files j).pipe = id then
            { P.files j with used := false }
          else P.files j }
    else { P with pipes := update P.pipes id p }
  else P

/-! ## What holds of the pools -/

/-- **The pools are in order**, where `held` are the file objects that have a descriptor. -/
structure PipePool.Inv (P : PipePool) (held : ℕ → Prop) : Prop where
  lt : ∀ i, (P.files i).used = true → i < maxPipeFiles
  /-- The file object of an end belongs to a pipe that is in use. -/
  inUse : ∀ i, (P.files i).used = true →
    (P.files i).pipe < maxPipes ∧ (P.pipes (P.files i).pipe).inUse = true
  /-- An end is open, once, as long as its file object is held. -/
  ends : ∀ i, (P.files i).used = true →
    ((P.pipes (P.files i).pipe).ends (P.files i).isRead = 1 ∧ held i) ∨
      ((P.pipes (P.files i).pipe).ends (P.files i).isRead = 0 ∧ ¬ held i)
  unique : ∀ i j, (P.files i).used = true → (P.files j).used = true →
    (P.files i).pipe = (P.files j).pipe → (P.files i).isRead = (P.files j).isRead → i = j
  both : ∀ p < maxPipes, (P.pipes p).inUse = true → ∀ isRead,
    ∃ i, (P.files i).used = true ∧ (P.files i).pipe = p ∧ (P.files i).isRead = isRead
  /-- A pipe with no open end is not in use. -/
  isOpen : ∀ p < maxPipes, (P.pipes p).inUse = true → ∃ isRead, (P.pipes p).ends isRead ≠ 0
  held : ∀ i, held i → (P.files i).used = true

/-- The file object is allocated, or the pipe it was an end of is gone: closing it does not touch
another pipe. -/
def PipePool.Current (P : PipePool) (i : ℕ) : Prop :=
  (P.files i).used = true ∨ (P.pipes (P.files i).pipe).inUse = false

def PipePool.EndOk (P : PipePool) (held : ℕ → Prop) (i : ℕ) : Prop :=
  i < maxPipeFiles ∧
    ((P.files i).pipe < maxPipes ∧ (P.pipes (P.files i).pipe).inUse = true) ∧
    (((P.pipes (P.files i).pipe).ends (P.files i).isRead = 1 ∧ held i) ∨
      ((P.pipes (P.files i).pipe).ends (P.files i).isRead = 0 ∧ ¬ held i)) ∧
    ∀ j, (P.files j).used = true → (P.files i).pipe = (P.files j).pipe →
      (P.files i).isRead = (P.files j).isRead → i = j

def PipePool.PipeOk (P : PipePool) (p : ℕ) : Prop :=
  (∀ isRead, ∃ i, (P.files i).used = true ∧ (P.files i).pipe = p ∧ (P.files i).isRead = isRead) ∧
    ∃ isRead, (P.pipes p).ends isRead ≠ 0

section Own

variable {P P' : PipePool} {held held' : ℕ → Prop}

theorem PipePool.Inv.endOk (h : P.Inv held) {i : ℕ} (hi : (P.files i).used = true) :
    P.EndOk held i :=
  ⟨h.lt i hi, h.inUse i hi, h.ends i hi, fun j hj => h.unique i j hi hj⟩

/-- **One pipe at a time.**  Where nothing else changes, the invariant has to be shown of the pipes
in `own` only. -/
theorem PipePool.Inv.of_own (h : P.Inv held) (own : ℕ → Prop)
    (hpipes : ∀ q, ¬ own q → P'.pipes q = P.pipes q)
    (hfiles : ∀ i, ((P'.files i).used = true ∧ ¬ own (P'.files i).pipe) ∨
      ((P.files i).used = true ∧ ¬ own (P.files i).pipe) →
        P'.files i = P.files i ∧ (held' i ↔ held i))
    (hend : ∀ i, (P'.files i).used = true → own (P'.files i).pipe → P'.EndOk held' i)
    (hpipe : ∀ p, own p → (P'.pipes p).inUse = true → P'.PipeOk p)
    (hheld : ∀ i, held' i → (P'.files i).used = true) : P'.Inv held' := by
  have hends : ∀ i, (P'.files i).used = true → P'.EndOk held' i := by
    intro i hi
    by_cases hown : own (P'.files i).pipe
    · exact hend i hi hown
    · obtain ⟨heq, hiff⟩ := hfiles i (.inl ⟨hi, hown⟩)
      rw [heq] at hi hown
      obtain ⟨hlt, huse, hopen, huniq⟩ := h.endOk hi
      unfold PipePool.EndOk
      rw [heq, hpipes _ hown, hiff]
      refine ⟨hlt, huse, hopen, fun j hj hp => ?_⟩
      have hj' := (hfiles j (.inl ⟨hj, hp ▸ hown⟩)).1
      rw [hj'] at hj hp ⊢
      exact huniq j hj hp
  have hpipes' : ∀ p < maxPipes, (P'.pipes p).inUse = true → P'.PipeOk p := by
    intro p hp hin
    by_cases hown : own p
    · exact hpipe p hown hin
    · unfold PipePool.PipeOk
      rw [hpipes p hown] at hin ⊢
      refine ⟨fun isRead => ?_, h.isOpen p hp hin⟩
      obtain ⟨i, hu, hip⟩ := h.both p hp hin isRead
      refine ⟨i, ?_⟩
      rw [(hfiles i (.inr ⟨hu, hip.1 ▸ hown⟩)).1]
      exact ⟨hu, hip⟩
  exact ⟨fun i hi => (hends i hi).1, fun i hi => (hends i hi).2.1, fun i hi => (hends i hi).2.2.1,
    fun i j hi => (hends i hi).2.2.2 j, fun p hp hin => (hpipes' p hp hin).1,
    fun p hp hin => (hpipes' p hp hin).2, hheld⟩

theorem PipePool.Inv.congr (h : P.Inv held)
    (hfiles : ∀ i, P'.files i = P.files i ∨ ((P'.files i).used = false ∧ (P.files i).used = false))
    (hpipes : ∀ p, P'.pipes p = P.pipes p ∨
      ((P'.pipes p).inUse = false ∧ (P.pipes p).inUse = false)) : P'.Inv held := by
  have hfile : ∀ i, (P'.files i).used = true ∨ (P.files i).used = true →
      P'.files i = P.files i := fun i hi => (hfiles i).resolve_right fun hn => by
    simp [hn.1, hn.2] at hi
  have hpipe : ∀ p, (P'.pipes p).inUse = true ∨ (P.pipes p).inUse = true →
      P'.pipes p = P.pipes p := fun p hp => (hpipes p).resolve_right fun hn => by
    simp [hn.1, hn.2] at hp
  refine h.of_own (fun p => (P.pipes p).inUse = false) (fun p hp => hpipe p (.inr ?_))
    (fun i hi => ⟨hfile i (hi.imp And.left And.left), .rfl⟩) (fun i hi hown => ?_)
    (fun p hown hin => ?_) fun i hi => ?_
  · exact Bool.eq_true_of_not_eq_false hp
  · have heq := hfile i (.inl hi)
    rw [heq] at hi hown
    exact absurd (hown.symm.trans (h.inUse i hi).2) Bool.false_ne_true
  · rw [hpipe p (.inl hin), hown] at hin
    exact absurd hin Bool.false_ne_true
  · rw [hfile i (.inr (h.held i hi))]
    exact h.held i hi

end Own

theorem Pipe.ends_dropEnd (p : Pipe) (isRead end' : Bool) :
    (p.dropEnd isRead).ends end' = if end' = isRead then p.ends end' - 1 else p.ends end' := by
  cases isRead <;> cases end' <;> rfl

theorem Pipe.inUse_dropEnd (p : Pipe) (isRead : Bool) : (p.dropEnd isRead).inUse = p.inUse := by
  cases isRead <;> rfl

theorem Pipe.ends_eq_zero (p : Pipe) : (p.readers = 0 ∧ p.writers = 0) ↔ ∀ isRead, p.ends isRead = 0 := by
  constructor
  · rintro ⟨hr, hw⟩ (_ | _)
    · exact hw
    · exact hr
  · exact fun h => ⟨h true, h false⟩

section Close

variable {P : PipePool} {held : ℕ → Prop} {i : ℕ}

def PipePool.release (P : PipePool) (id : ℕ) (p : Pipe) : PipePool where
  pipes := update P.pipes id { p with inUse := false }
  files := fun j =>
    if j < maxPipeFiles ∧ (P.files j).used = true ∧ (P.files j).pipe = id then
      { P.files j with used := false }
    else P.files j

def PipePool.setPipe (P : PipePool) (id : ℕ) (p : Pipe) : PipePool :=
  { P with pipes := update P.pipes id p }

theorem pipeCloseOp_of_inUse (hid : (P.files i).pipe < maxPipes)
    (huse : (P.pipes (P.files i).pipe).inUse = true) :
    pipeCloseOp P i =
      if ∀ isRead, ((P.pipes (P.files i).pipe).dropEnd (P.files i).isRead).ends isRead = 0 then
        P.release (P.files i).pipe ((P.pipes (P.files i).pipe).dropEnd (P.files i).isRead)
      else
        P.setPipe (P.files i).pipe ((P.pipes (P.files i).pipe).dropEnd (P.files i).isRead) := by
  unfold pipeCloseOp
  dsimp only
  rw [if_pos ⟨hid, huse⟩]
  exact if_congr (Pipe.ends_eq_zero _) rfl rfl

theorem used_release (h : P.Inv held) (id : ℕ) (p : Pipe) (j : ℕ) :
    ((P.release id p).files j).used = true ↔
      (P.files j).used = true ∧ (P.files j).pipe ≠ id := by
  unfold PipePool.release
  dsimp only
  split_ifs with hj
  · exact iff_of_false nofun fun hne => hne.2 hj.2.2
  · exact ⟨fun hu => ⟨hu, fun he => hj ⟨h.lt j hu, hu, he⟩⟩, fun hu => hu.1⟩

theorem files_release_of_ne {id : ℕ} (p : Pipe) {j : ℕ} (hj : (P.files j).pipe ≠ id) :
    (P.release id p).files j = P.files j :=
  if_neg fun h => hj h.2.2

theorem PipePool.Inv.not_held_of_closed (h : P.Inv held) (hi : held i) {j : ℕ} (hj : held j)
    (hji : j ≠ i) (he : (P.files j).pipe = (P.files i).pipe) :
    ¬ ∀ isRead, ((P.pipes (P.files i).pipe).dropEnd (P.files i).isRead).ends isRead = 0 := by
  intro hall
  have hend : (P.files j).isRead ≠ (P.files i).isRead := fun hend =>
    hji (h.unique j i (h.held j hj) (h.held i hi) he hend)
  have hone := (h.ends j (h.held j hj)).resolve_right fun hn => hn.2 hj
  have hzero := hall (P.files j).isRead
  rw [Pipe.ends_dropEnd, if_neg hend, ← he, hone.1] at hzero
  exact absurd hzero one_ne_zero

theorem PipePool.Inv.close (h : P.Inv held) (hi : held i) :
    (pipeCloseOp P i).Inv fun j => held j ∧ j ≠ i := by
  have hused := h.held i hi
  obtain ⟨hid, huse⟩ := h.inUse i hused
  have hone := (h.ends i hused).resolve_right fun hn => hn.2 hi
  rw [pipeCloseOp_of_inUse hid huse]
  generalize hp : (P.pipes (P.files i).pipe).dropEnd (P.files i).isRead = p
  split_ifs with hzero
  · -- the pipe is freed; what is left belongs to other pipes
    have hused' := used_release h (P.files i).pipe p
    refine h.of_own (· = (P.files i).pipe) (fun q hq => update_of_ne hq ..) (fun j hj => ?_)
      (fun j hj hown => ?_) (fun q hq hin => ?_) fun j hj => ?_
    · have hne : (P.files j).pipe ≠ (P.files i).pipe :=
        hj.elim (fun hj => ((hused' j).mp hj.1).2) And.right
      exact ⟨files_release_of_ne p hne, and_iff_left fun hji => hne (by rw [hji])⟩
    · have hne := ((hused' j).mp hj).2
      rw [files_release_of_ne p hne] at hown
      exact absurd hown hne
    · subst hq
      simp [PipePool.release] at hin
    · exact (hused' j).mpr ⟨h.held j hj.1, fun he =>
        h.not_held_of_closed hi hj.1 hj.2 he (hp ▸ hzero)⟩
  · -- the other end is open
    unfold PipePool.setPipe
    have hpuse : p.inUse = true := by rw [← hp, Pipe.inUse_dropEnd, huse]
    refine h.of_own (· = (P.files i).pipe) (fun q hq => update_of_ne hq ..)
      (fun j hj => ⟨rfl, and_iff_left fun hji => ?_⟩) (fun j hj hown => ?_) (fun q hq _ => ?_)
      fun j hj => h.held j hj.1
    · exact (hj.elim And.right And.right) (by rw [hji])
    · obtain ⟨hlt, -, hopen, huniq⟩ := h.endOk hj
      dsimp only at hown
      unfold PipePool.EndOk
      dsimp only
      rw [hown, update_self, hpuse, ← hp, Pipe.ends_dropEnd, ← hown]
      refine ⟨hlt, ⟨hown ▸ hid, rfl⟩, ?_, huniq⟩
      by_cases hside : (P.files j).isRead = (P.files i).isRead
      · obtain rfl := huniq i hused hown hside
        rw [if_pos rfl, hone.1]
        exact .inr ⟨rfl, fun hh => hh.2 rfl⟩
      · have hji : j ≠ i := fun hji => hside (by rw [hji])
        rw [if_neg hside, and_iff_left hji]
        exact hopen
    · subst hq
      refine ⟨h.both _ hid huse, ?_⟩
      dsimp only
      rw [update_self]
      exact not_forall.mp hzero

theorem PipePool.Inv.close_again (h : P.Inv held) (hi : ¬ held i) (hc : P.Current i) :
    pipeCloseOp P i = P := by
  rcases hc with hu | hgone
  · obtain ⟨hid, huse⟩ := h.inUse i hu
    have hzero := (h.ends i hu).resolve_left fun he => hi he.2
    have hsame : (P.pipes (P.files i).pipe).dropEnd (P.files i).isRead =
        P.pipes (P.files i).pipe := by
      unfold Pipe.ends at hzero
      unfold Pipe.dropEnd
      split_ifs at hzero ⊢ with hr
      · rw [hzero.1, Nat.zero_sub, ← hzero.1]
      · rw [hzero.1, Nat.zero_sub, ← hzero.1]
    rw [pipeCloseOp_of_inUse hid huse, hsame, if_neg]
    · unfold PipePool.setPipe
      rw [update_eq_self]
    intro hall
    obtain ⟨isRead, hne⟩ := h.isOpen _ hid huse
    exact hne (hall isRead)
  · unfold pipeCloseOp
    dsimp only
    exact if_neg fun hin => Bool.false_ne_true (hgone.symm.trans hin.2)

theorem PipePool.Current.close {j : ℕ} (h : P.Current j) : (pipeCloseOp P i).Current j := by
  by_cases hin : (P.files i).pipe < maxPipes ∧ (P.pipes (P.files i).pipe).inUse = true
  · rw [pipeCloseOp_of_inUse hin.1 hin.2]
    have huse := (Pipe.inUse_dropEnd (P.pipes (P.files i).pipe) (P.files i).isRead).trans hin.2
    generalize (P.pipes (P.files i).pipe).dropEnd (P.files i).isRead = p at huse ⊢
    unfold PipePool.Current at h ⊢
    split_ifs
    · unfold PipePool.release
      dsimp only
      by_cases hjp : (P.files j).pipe = (P.files i).pipe
      · refine .inr ?_
        split_ifs
        · rw [hjp, update_self]
        · rw [hjp, update_self]
      · rw [if_neg fun h => hjp h.2.2, update_of_ne hjp]
        exact h
    · refine h.imp id fun hgone => ?_
      have hjp : (P.files j).pipe ≠ (P.files i).pipe := by
        intro hjp
        rw [hjp, hin.2] at hgone
        exact Bool.false_ne_true hgone.symm
      exact (congrArg Pipe.inUse (update_of_ne hjp p P.pipes)).trans hgone
  · unfold pipeCloseOp
    dsimp only
    rwa [if_neg hin]

end Close

section Create

variable {P P' : PipePool} {held : ℕ → Prop} {mem : Bool} {r w : ℕ}

theorem pipeAllocFile_cases (P : PipePool) (p : ℕ) (isRead : Bool) :
    (pipeAllocFile P p isRead = (none, P) ∧ ∀ q b, pipeAllocFile P q b = (none, P)) ∨
    ∃ i < maxPipeFiles, (P.files i).used = false ∧ pipeAllocFile P p isRead =
        (some i, { P with files := update P.files i ⟨true, p, isRead⟩ }) := by
  unfold pipeAllocFile
  rcases hf : firstFree (fun i => (P.files i).used) 0 maxPipeFiles with _ | i
  · exact .inl ⟨rfl, fun _ _ => rfl⟩
  · obtain ⟨-, hlt, hfree⟩ := firstFree_eq_some hf
    exact .inr ⟨i, hlt, hfree, rfl⟩

theorem pipeAlloc_cases (P : PipePool) (mem : Bool) :
    pipeAlloc P mem = (none, P) ∨ ∃ p < maxPipes, (P.pipes p).inUse = false ∧
      pipeAlloc P mem = (some p, P.setPipe p ⟨0, 0, true⟩) := by
  unfold pipeAlloc
  rcases hf : firstFree (fun p => (P.pipes p).inUse) 0 maxPipes with _ | p
  · exact .inl rfl
  · obtain ⟨-, hlt, hfree⟩ := firstFree_eq_some hf
    dsimp only
    split_ifs
    · exact .inr ⟨p, hlt, hfree, rfl⟩
    · exact .inl rfl

/-- What `pipe_create_fds` does with the pools. -/
inductive PipeCreated (P : PipePool) : Option (ℕ × ℕ) × PipePool → Prop
  /-- A free pipe with two free file objects. -/
  | created (p r w : ℕ) (hp : p < maxPipes) (hfree : (P.pipes p).inUse = false)
      (hr : r < maxPipeFiles) (hw : w < maxPipeFiles) (hne : w ≠ r)
      (hru : (P.files r).used = false) (hwu : (P.files w).used = false) :
      PipeCreated P (some (r, w), {
        pipes := update P.pipes p ⟨1, 1, true⟩
        files := update (update P.files r ⟨true, p, true⟩) w ⟨true, p, false⟩ })
  /-- Nothing that is in use has changed. -/
  | failed (P' : PipePool)
      (hfiles : ∀ i, P'.files i = P.files i ∨
        ((P'.files i).used = false ∧ (P.files i).used = false))
      (hpipes : ∀ p, P'.pipes p = P.pipes p ∨
        ((P'.pipes p).inUse = false ∧ (P.pipes p).inUse = false)) : PipeCreated P (none, P')

theorem pipeCreate_cases (P : PipePool) (mem : Bool) : PipeCreated P (pipeCreate P mem) := by
  unfold pipeCreate
  rcases pipeAlloc_cases P mem with halloc | ⟨p, hp, hfree, halloc⟩
  · rw [halloc]
    exact .failed P (fun _ => .inl rfl) fun _ => .inl rfl
  · rw [halloc]
    have hpipes : ∀ files q, (pipeFree ⟨(P.setPipe p ⟨0, 0, true⟩).pipes, files⟩ p).pipes q =
          P.pipes q ∨
        (((pipeFree ⟨(P.setPipe p ⟨0, 0, true⟩).pipes, files⟩ p).pipes q).inUse = false ∧
          (P.pipes q).inUse = false) := by
      intro files q
      unfold pipeFree PipePool.setPipe
      dsimp only
      by_cases hq : q = p
      · subst hq
        rw [update_self]
        exact .inr ⟨rfl, hfree⟩
      · rw [update_of_ne hq, update_of_ne hq]
        exact .inl rfl
    dsimp only
    rcases pipeAllocFile_cases (P.setPipe p ⟨0, 0, true⟩) p true with ⟨hrd, hnone⟩ | ⟨r, hr, hru, hrd⟩
    · rw [hrd, hnone p false]
      exact .failed _ (fun _ => .inl rfl) (hpipes _)
    · rw [hrd]
      dsimp only [PipePool.setPipe] at hpipes hru ⊢
      generalize hP₂ : PipePool.mk (update P.pipes p ⟨0, 0, true⟩)
        (update P.files r ⟨true, p, true⟩) = P₂
      have hfiles : P₂.files = update P.files r ⟨true, p, true⟩ := by rw [← hP₂]
      have hps : P₂.pipes = update P.pipes p ⟨0, 0, true⟩ := by rw [← hP₂]
      rcases pipeAllocFile_cases P₂ p false with ⟨hwr, -⟩ | ⟨w, hw, hwu, hwr⟩
      · -- the file object that was found is given back
        rw [hwr]
        dsimp only
        rw [hps]
        refine .failed _ (fun i => ?_) (hpipes _)
        unfold pipeFree
        dsimp only
        by_cases hi : i = r
        · subst hi
          rw [update_self]
          exact .inr ⟨rfl, hru⟩
        · rw [update_of_ne hi, hfiles, update_of_ne hi]
          exact .inl rfl
      · have hne : w ≠ r := by
          rintro rfl
          rw [hfiles, update_self] at hwu
          exact Bool.false_ne_true hwu.symm
        rw [hfiles, update_of_ne hne] at hwu
        rw [hwr]
        dsimp only
        rw [hps, hfiles, update_idem]
        exact .created p r w hp hfree hr hw hne hru hwu

theorem PipePool.Inv.create (h : P.Inv held) {p : ℕ} (hp : p < maxPipes)
    (hfree : (P.pipes p).inUse = false) (hr : r < maxPipeFiles) (hw : w < maxPipeFiles)
    (hne : w ≠ r) (hru : (P.files r).used = false) (hwu : (P.files w).used = false) :
    PipePool.Inv ⟨update P.pipes p ⟨1, 1, true⟩,
        update (update P.files r ⟨true, p, true⟩) w ⟨true, p, false⟩⟩
      fun i => held i ∨ i = r ∨ i = w := by
  generalize hfs : update (update P.files r ⟨true, p, true⟩) w ⟨true, p, false⟩ = fs
  generalize hps : update P.pipes p ⟨1, 1, true⟩ = ps
  have hfw : fs w = ⟨true, p, false⟩ := by rw [← hfs, update_self]
  have hfr : fs r = ⟨true, p, true⟩ := by
    rw [← hfs, update_of_ne hne.symm, update_self]
  have hfo : ∀ i, i ≠ r → i ≠ w → fs i = P.files i := fun i hir hiw => by
    rw [← hfs, update_of_ne hiw, update_of_ne hir]
  have hpp : ps p = ⟨1, 1, true⟩ := by rw [← hps, update_self]
  have hpo : ∀ q, q ≠ p → ps q = P.pipes q := fun q hq => by rw [← hps, update_of_ne hq]
  -- a file object of the new pipe is one of the two
  have hnew : ∀ i, (fs i).used = true → (fs i).pipe = p → i = r ∨ i = w := by
    intro i hi hip
    by_contra hn
    obtain ⟨hir, hiw⟩ := not_or.mp hn
    rw [hfo i hir hiw] at hi hip
    have hin := (h.inUse i hi).2
    rw [hip, hfree] at hin
    exact Bool.false_ne_true hin
  have hold : ∀ i, (fs i).used = true ∧ (fs i).pipe ≠ p ∨
      (P.files i).used = true ∧ (P.files i).pipe ≠ p → i ≠ r ∧ i ≠ w := by
    rintro i (⟨-, hip⟩ | ⟨hi, -⟩)
    · exact ⟨fun hir => hip (by rw [hir, hfr]), fun hiw => hip (by rw [hiw, hfw])⟩
    · exact ⟨fun hir => by simp [hir, hru] at hi, fun hiw => by simp [hiw, hwu] at hi⟩
  refine h.of_own (· = p) (fun q hq => hpo q hq) (fun i hi => ?_) (fun i hi hip => ?_)
    (fun q hq _ => ?_) fun i hi => ?_
  · obtain ⟨hir, hiw⟩ := hold i hi
    exact ⟨hfo i hir hiw, by simp [hir, hiw]⟩
  · unfold PipePool.EndOk
    dsimp only at hi hip ⊢
    rcases hnew i hi hip with rfl | rfl
    · rw [hfr, hpp]
      refine ⟨hr, ⟨hp, rfl⟩, .inl ⟨rfl, .inr (.inl rfl)⟩, fun j hj hjp hjr => ?_⟩
      refine ((hnew j hj hjp.symm).resolve_right fun hjw => ?_).symm
      simp [hjw, hfw] at hjr
    · rw [hfw, hpp]
      refine ⟨hw, ⟨hp, rfl⟩, .inl ⟨rfl, .inr (.inr rfl)⟩, fun j hj hjp hjr => ?_⟩
      refine ((hnew j hj hjp.symm).resolve_left fun hjr' => ?_).symm
      simp [hjr', hfr] at hjr
  · subst hq
    refine ⟨fun isRead => ?_, true, by simp [hpp, Pipe.ends]⟩
    cases isRead with
    | true => exact ⟨r, by simp [hfr]⟩
    | false => exact ⟨w, by simp [hfw]⟩
  · dsimp only
    rcases hi with hi | rfl | rfl
    · have hir : i ≠ r ∧ i ≠ w := ⟨fun hir => ?_, fun hiw => ?_⟩
      · rw [hfo i hir.1 hir.2]
        exact h.held i hi
      · simp [← hir, h.held i hi] at hru
      · simp [← hiw, h.held i hi] at hwu
    · rw [hfr]
    · rw [hfw]

end Create

end BananaOS.Fs
