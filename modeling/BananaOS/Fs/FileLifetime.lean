import BananaOS.Fs.FileTable

/-!
# The lifetime of a file object

A file object should live from the call that makes it to the moment when the last slot of the
descriptor table that refers to it is emptied.  For ext2 files this is what `ref_count` is for, and
it works.  The other close operations do not look at it, so that there a file object goes with the
first of its slots; and it does not go at all if it never got a slot.
-/

namespace BananaOS.Fs

open Function SlotTable Ownership GuardedRun
open Proc (maxFds)

/-! ## What is claimed -/

def FileTable.Allocated (s : FileTable) : FileId → Prop
  | .dev _ => True
  | .ext2 i => s.ext2Used i = true
  | .pipe i => (s.pipes.files i).used = true
  | .proc i => s.procBusy i = true
  | .loop i => (s.loop.files i).ops = true
  | .udp i => (s.udpFiles i).ops = true

def FileTable.slots (s : FileTable) (f : FileId) : ℕ := count maxFds s.fdTable f

def FileTable.Referred (s : FileTable) (f : FileId) : Prop := 0 < s.slots f

def FileTable.EndOpen (s : FileTable) (i : ℕ) : Prop :=
  0 < (s.pipes.pipes (s.pipes.files i).pipe).ends (s.pipes.files i).isRead

/-- Endpoint `c` belongs to a socket: it is the one it is connected with, or waits in its queue. -/
def LoopNet.Belongs (N : LoopNet) (c k : ℕ) : Prop :=
  (N.socks k).heldConn = some c ∨
    ∃ l j, (N.socks k).heldListen = some l ∧ (N.listens l).heldConn j = some c

/-- **Endpoints of connections**: one is in use exactly as long as a slot refers to the socket that it
belongs to, and it is marked as closed exactly if its other end is not in use any more. -/
structure FileTable.ConnLifetimes (s : FileTable) : Prop where
  used : ∀ c, (s.loop.conns c).used = true ↔
    ∃ i k, s.Referred (.loop i) ∧ (s.loop.files i).sock = some k ∧ s.loop.Belongs c k
  closed : ∀ c, (s.loop.conns c).used = true → ((s.loop.conns c).closed = false ↔
    ∃ d, (s.loop.conns d).used = true ∧ (s.loop.conns d).peer = some c)

/-- **The lifetimes one would expect**: every slot refers to a live object, and every object is live,
every end of a pipe open and every endpoint in use exactly as long as a slot refers to it. -/
structure FileTable.Expected (s : FileTable) : Prop where
  live : ∀ fd f, s.fdTable fd = some f → s.Allocated f
  released : ∀ f, (∀ i, f ≠ .dev i) → (s.Allocated f ↔ s.Referred f)
  ends : ∀ i, s.Allocated (.pipe i) → (s.EndOpen i ↔ s.Referred (.pipe i))
  conns : s.ConnLifetimes

/-- **The lifetimes there are.**  The file objects of the two ends of a pipe are given back together,
when no slot refers to either. -/
structure FileTable.Lifetimes (s : FileTable) : Prop where
  live : ∀ fd f, s.fdTable fd = some f → s.Allocated f
  released : ∀ f, (∀ i, f ≠ .dev i) → (∀ i, f ≠ .pipe i) → (s.Allocated f ↔ s.Referred f)
  ends : ∀ i, s.Allocated (.pipe i) → (s.EndOpen i ↔ s.Referred (.pipe i))
  pipes : ∀ i, s.Allocated (.pipe i) →
    ∃ j, s.Referred (.pipe j) ∧ (s.pipes.files j).pipe = (s.pipes.files i).pipe
  conns : s.ConnLifetimes

/-! ## Careful calls -/

/-- Closing the file object looks at `ref_count`, or does nothing at all. -/
def FileId.counted : FileId → Bool
  | .dev _ => true
  | .ext2 _ => true
  | _ => false

def FileId.isDev : FileId → Bool
  | .dev _ => true
  | _ => false

def FileId.loopIndex : FileId → Option ℕ
  | .loop i => some i
  | _ => none

def FileTable.Releasable (s : FileTable) (f : FileId) : Prop := f.counted = true ∨ s.slots f = 1

/-- The slot that `dup2` fills, and that refers to `g`, may be emptied first. -/
def FileTable.Replaceable (s : FileTable) (oldfd newfd : ℕ) (g : FileId) : Prop :=
  if s.fdTable oldfd = some g then
    g.counted = true ∧ (oldfd = newfd → g.isDev = true ∨ 2 ≤ s.slots g)
  else s.Releasable g

/-- **The calls that keep the lifetimes in order.** -/
def FileTable.Careful (s : FileTable) : ℤ × FileCall → Prop
  | (_, .openExt2 denied) =>
    denied = true ∨ firstFree s.ext2Used 0 ext2PoolSize = none ∨ s.freeFd 3 ≠ none
  | (_, .openProc known) => known = false ∨ s.freeFd 3 = none
  | (_, .pipe mem) =>
    mem = false ∨ firstFree (fun p => (s.pipes.pipes p).inUse) 0 maxPipes = none ∨
      ∃ fd ∈ s.freeFd 3, s.freeFd (fd + 1) ≠ none
  | (_, .accept fd) =>
    ∀ i ∈ (s.vfsFdGet fd).bind FileId.loopIndex, (acceptFrom s.loop i).isOk = true →
      firstFree (fun k => (s.loop.socks k).used) 0 loopMaxSocks ≠ none ∧
      firstFree (fun i => (s.loop.files i).ops) 0 loopMaxFiles ≠ none ∧ s.freeFd 3 ≠ none
  | (_, .dup2 oldfd newfd) =>
    oldfd < maxFds → newfd < maxFds → s.fdTable oldfd ≠ none →
      ∀ g ∈ s.fdTable newfd, s.Replaceable oldfd newfd g
  | (_, .close fd) => ∀ f ∈ s.vfsFdGet fd, s.Releasable f
  | (pid, .exit) =>
    0 < pid → ∀ fd < maxFds, s.fdOwner fd = pid → ∀ f ∈ s.fdTable fd, f.counted = false →
      ∀ fd' < maxFds, s.fdTable fd' = some f → s.fdOwner fd' = pid
  | _ => True

instance (s : FileTable) (f : FileId) : Decidable (s.Releasable f) :=
  inferInstanceAs (Decidable (_ ∨ _))

instance (s : FileTable) (oldfd newfd : ℕ) (g : FileId) : Decidable (s.Replaceable oldfd newfd g) :=
  inferInstanceAs (Decidable (if s.fdTable oldfd = some g then
    g.counted = true ∧ (oldfd = newfd → g.isDev = true ∨ 2 ≤ s.slots g) else s.Releasable g))

instance (s : FileTable) : (e : ℤ × FileCall) → Decidable (s.Careful e)
  | (_, .openExt2 _) => inferInstanceAs (Decidable (_ ∨ _))
  | (_, .openProc _) => inferInstanceAs (Decidable (_ ∨ _))
  | (_, .pipe _) => inferInstanceAs (Decidable (_ ∨ _ ∨ _))
  | (_, .accept _) => inferInstanceAs (Decidable (∀ _, _ → _))
  | (_, .dup2 _ _) => inferInstanceAs (Decidable (_ → _))
  | (_, .close _) => inferInstanceAs (Decidable (∀ _, _ → _))
  | (_, .exit) => inferInstanceAs (Decidable (_ → _))
  | (_, .openDev _) => inferInstanceAs (Decidable True)
  | (_, .socketStream) => inferInstanceAs (Decidable True)
  | (_, .socketDgram) => inferInstanceAs (Decidable True)
  | (_, .bind _ _) => inferInstanceAs (Decidable True)
  | (_, .listen _) => inferInstanceAs (Decidable True)
  | (_, .connect _ _) => inferInstanceAs (Decidable True)
  | (_, .dup _) => inferInstanceAs (Decidable True)
  | (_, .dupfd _ _) => inferInstanceAs (Decidable True)
  | (_, .wireStd) => inferInstanceAs (Decidable True)

/-! ## The invariant -/

/-- The file objects and sockets of UDP, where `held` are the file objects that have a slot. -/
structure UdpInv (files : ℕ → SockFile) (used : ℕ → Bool) (held : ℕ → Prop) : Prop where
  ops_iff : ∀ i, (files i).ops = true ↔ held i
  file_sock : ∀ i, (files i).ops = true → (files i).sock ≠ none
  socks : Owns (SockFile.held ∘ files) fun k => used k = true

/-- **The table and the pools are in order.**  `held` says which pipes and sockets are to be live:
between two calls, those that a slot refers to; while a process exits, a file object counts as gone
with the first of its slots. -/
structure FileTable.Inv (s : FileTable) (held : FileId → Prop) : Prop where
  lt : ∀ fd f, s.fdTable fd = some f → fd < maxFds
  ref : ∀ i, s.refCount (.ext2 i) = s.slots (.ext2 i)
  ext2 : ∀ i, s.ext2Used i = true ↔ s.Referred (.ext2 i)
  proc : ∀ i, ¬ s.Referred (.proc i)
  busy : ∀ i, s.procBusy i = false
  pipes : s.pipes.Inv fun i => held (.pipe i)
  loop : s.loop.Inv fun i => held (.loop i)
  udp : UdpInv s.udpFiles s.udpUsed fun i => held (.udp i)

/-- The part of it that is about the slots, and the part that is about the pools. -/
structure FileTable.Counted (s : FileTable) : Prop where
  lt : ∀ fd f, s.fdTable fd = some f → fd < maxFds
  ref : ∀ i, s.refCount (.ext2 i) = s.slots (.ext2 i)
  ext2 : ∀ i, s.ext2Used i = true ↔ s.Referred (.ext2 i)
  proc : ∀ i, ¬ s.Referred (.proc i)
  busy : ∀ i, s.procBusy i = false

structure FileTable.Pools (s : FileTable) (held : FileId → Prop) : Prop where
  pipes : s.pipes.Inv fun i => held (.pipe i)
  loop : s.loop.Inv fun i => held (.loop i)
  udp : UdpInv s.udpFiles s.udpUsed fun i => held (.udp i)

variable {used : ℕ → Bool} {i : ℕ} {pid : ℤ}

section Basic

variable {s : FileTable} {held held' : FileId → Prop}

theorem FileTable.Inv.counted (h : s.Inv held) : s.Counted := ⟨h.lt, h.ref, h.ext2, h.proc, h.busy⟩

theorem FileTable.Counted.inv (h : s.Counted) (hpools : s.Pools held) : s.Inv held :=
  ⟨h.lt, h.ref, h.ext2, h.proc, h.busy, hpools.pipes, hpools.loop, hpools.udp⟩

theorem FileTable.Inv.congr (h : s.Inv held) (hh : ∀ f, f.counted = false → (held' f ↔ held f)) :
    s.Inv held' := by
  have heq : ∀ {g : ℕ → FileId}, (∀ i, (g i).counted = false) →
      (fun i => held' (g i)) = fun i => held (g i) := fun hg =>
    funext fun i => propext (hh _ (hg i))
  refine h.counted.inv ⟨?_, ?_, ?_⟩
  · rw [heq fun _ => rfl]
    exact h.pipes
  · rw [heq fun _ => rfl]
    exact h.loop
  · rw [heq fun _ => rfl]
    exact h.udp

theorem LoopNet.Inv.used_conn_iff {N : LoopNet} {held : ℕ → Prop} (h : N.Inv held) (c : ℕ) :
    (N.conns c).used = true ↔ ∃ i k, held i ∧ (N.files i).sock = some k ∧ N.Belongs c k := by
  have hfile : ∀ k, (N.socks k).used = true → ∃ i, held i ∧ (N.files i).sock = some k := by
    intro k hk
    obtain ⟨i, hi⟩ := h.socks.owner hk
    obtain ⟨hops, hsock⟩ := Option.ite_none_right_eq_some.mp hi
    exact ⟨i, (h.ops_iff i).mp hops, hsock⟩
  constructor
  · intro hc
    obtain ⟨p, hp⟩ := h.conns.owner hc
    cases p with
    | sock k =>
      have hk : (N.socks k).heldConn = some c := hp
      obtain ⟨i, hi, hsock⟩ := hfile k (Option.ite_none_right_eq_some.mp hk).1.1
      exact ⟨i, k, hi, hsock, .inl hk⟩
    | pending l j =>
      have hl : (N.listens l).heldConn j = some c := hp
      obtain ⟨k, hk⟩ := h.listens.owner (Option.ite_none_right_eq_some.mp hl).1.1
      obtain ⟨i, hi, hsock⟩ := hfile k (Option.ite_none_right_eq_some.mp hk).1.1
      exact ⟨i, k, hi, hsock, .inr ⟨l, j, hk, hl⟩⟩
  · rintro ⟨i, k, -, -, hk | ⟨l, j, -, hl⟩⟩
    · exact h.conns.isLive (i := .sock k) hk
    · exact h.conns.isLive (i := .pending l j) hl

theorem FileTable.Inv.lifetimes (h : s.Inv s.Referred) : s.Lifetimes := by
  have href : ∀ fd f, s.fdTable fd = some f → s.Referred f := fun fd f hf =>
    count_pos.mpr ⟨fd, h.lt fd f hf, hf⟩
  have hpipe : ∀ i, s.Allocated (.pipe i) → (s.EndOpen i ↔ s.Referred (.pipe i)) := by
    intro i hi
    unfold FileTable.EndOpen
    rcases h.pipes.ends i hi with ⟨he, hr⟩ | ⟨he, hr⟩
    · rw [he]
      exact iff_of_true one_pos hr
    · rw [he]
      exact iff_of_false (lt_irrefl 0) hr
  refine ⟨fun fd f hf => ?_, fun f hdev hpipe => ?_, hpipe, fun i hi => ?_, ⟨fun c => ?_, fun c hc => ?_⟩⟩
  · have hr := href fd f hf
    cases f with
    | dev i => trivial
    | ext2 i => exact (h.ext2 i).mpr hr
    | pipe i => exact h.pipes.held i hr
    | proc i => exact absurd hr (h.proc i)
    | loop i => exact (h.loop.ops_iff i).mpr hr
    | udp i => exact (h.udp.ops_iff i).mpr hr
  · cases f with
    | dev i => exact absurd rfl (hdev i)
    | ext2 i => exact h.ext2 i
    | pipe i => exact absurd rfl (hpipe i)
    | proc i =>
      exact iff_of_false (fun hb => Bool.false_ne_true ((h.busy i).symm.trans hb)) (h.proc i)
    | loop i => exact h.loop.ops_iff i
    | udp i => exact h.udp.ops_iff i
  · obtain ⟨hlt, huse⟩ := h.pipes.inUse i hi
    obtain ⟨isRead, hopen⟩ := h.pipes.isOpen _ hlt huse
    obtain ⟨j, hju, hjp, hjr⟩ := h.pipes.both _ hlt huse isRead
    refine ⟨j, (hpipe j hju).mp (Nat.pos_of_ne_zero ?_), hjp⟩
    rwa [hjp, hjr]
  · exact h.loop.used_conn_iff c
  · have hclosed := h.loop.peers.closed c hc
    rw [← Bool.not_eq_true, hclosed]
    constructor
    · intro hp
      obtain ⟨d, hd⟩ := Option.ne_none_iff_exists'.mp hp
      obtain ⟨-, hdu, hdp⟩ := h.loop.peers.sym c d hc hd
      exact ⟨d, hdu, hdp⟩
    · rintro ⟨d, hdu, hdp⟩ hp
      rw [(h.loop.peers.sym d c hdu hdp).2.2] at hp
      cases hp

end Basic

/-! ## Emptying a slot -/

section Close

variable {s : FileTable} {held : FileId → Prop} {fd : ℕ} {f : FileId}

/-- What closing a file object leaves alone. -/
structure Untouched (s t : FileTable) (f : FileId) : Prop where
  fdTable : t.fdTable = s.fdTable
  fdOwner : t.fdOwner = s.fdOwner
  busy : (∀ i, s.procBusy i = false) → ∀ i, t.procBusy i = false
  ext2 : (∀ i, f ≠ .ext2 i) → t.refCount = s.refCount ∧ t.ext2Used = s.ext2Used
  pipes : (∀ i, f ≠ .pipe i) → t.pipes = s.pipes
  loop : (∀ i, f ≠ .loop i) → t.loop = s.loop
  udp : (∀ i, f ≠ .udp i) → t.udpFiles = s.udpFiles ∧ t.udpUsed = s.udpUsed

theorem vfsClose_untouched (s : FileTable) (f : FileId) : Untouched s (s.vfsClose f) f := by
  have hsame : Untouched s s f := ⟨rfl, rfl, id, fun _ => ⟨rfl, rfl⟩, fun _ => rfl, fun _ => rfl,
    fun _ => ⟨rfl, rfl⟩⟩
  cases f with
  | dev i => exact hsame
  | ext2 i =>
    unfold FileTable.vfsClose FileTable.ext2CloseOp
    dsimp only
    split_ifs
    · exact { hsame with ext2 := fun hne => absurd rfl (hne i) }
    · exact { hsame with ext2 := fun hne => absurd rfl (hne i) }
    · exact hsame
  | pipe i => exact { hsame with pipes := fun hne => absurd rfl (hne i) }
  | proc i =>
    exact { hsame with
      busy := fun hbusy => (Function.forall_update_iff s.procBusy fun _ b => b = false).mpr
        ⟨rfl, fun j _ => hbusy j⟩ }
  | loop i =>
    unfold FileTable.vfsClose
    dsimp only
    split_ifs
    · exact { hsame with loop := fun hne => absurd rfl (hne i) }
    · exact hsame
  | udp i =>
    unfold FileTable.vfsClose
    dsimp only
    split_ifs
    · exact { hsame with udp := fun hne => absurd rfl (hne i) }
    · exact hsame

theorem closeSlot_slots (s : FileTable) (fd : ℕ) (f : FileId) :
    (s.closeSlot fd f).fdTable = update s.fdTable fd none ∧
      (s.closeSlot fd f).fdOwner = update s.fdOwner fd (-1) := by
  unfold FileTable.closeSlot FileTable.vfsFdFree
  rw [(vfsClose_untouched s f).fdTable, (vfsClose_untouched s f).fdOwner]
  exact ⟨rfl, rfl⟩

theorem slots_closeSlot (hfd : fd < maxFds) (hf : s.fdTable fd = some f) (g : FileId) :
    s.slots g = (s.closeSlot fd f).slots g + if g = f then 1 else 0 := by
  unfold FileTable.slots
  rw [(closeSlot_slots s fd f).1]
  exact count_clear hfd hf g

theorem UdpInv.close {files : ℕ → SockFile} {held : ℕ → Prop}
    (h : UdpInv files used held) {k : ℕ} (hi : held i) (hk : (files i).sock = some k) :
    UdpInv (update files i ⟨false, none⟩) (update used k false)
      fun j => held j ∧ j ≠ i := by
  have hown : (SockFile.held ∘ files) i = some k := (if_pos ((h.ops_iff i).mpr hi)).trans hk
  refine ⟨fun j => ?_, ?_, ((h.socks.owned.drop hown).congr (Function.comp_update ..)
    (update_dead_iff (P := fun b => b = true) Bool.false_ne_true)).owns⟩
  · rw [← h.ops_iff j]
    exact update_dead_iff (P := fun f : SockFile => f.ops = true) Bool.false_ne_true j
  · exact (Function.forall_update_iff files fun _ f => f.ops = true → f.sock ≠ none).mpr
      ⟨fun hn => absurd hn Bool.false_ne_true, fun j _ => h.file_sock j⟩

theorem FileTable.Counted.lt_update (h : s.Counted) (hfd : fd < maxFds) {x : Option FileId} (fd' : ℕ)
    (g : FileId) (hg : update s.fdTable fd x fd' = some g) : fd' < maxFds := by
  by_cases hfd' : fd' = fd
  · rw [hfd']
    exact hfd
  · exact h.lt fd' g ((update_of_ne hfd' ..).symm.trans hg)

theorem FileTable.Counted.clear {t : FileTable} (h : s.Counted) (hf : s.fdTable fd = some f)
    (hext2 : ∀ i, f ≠ .ext2 i) (htable : t.fdTable = update s.fdTable fd none)
    (hsame : t.refCount = s.refCount ∧ t.ext2Used = s.ext2Used) (hbusy : ∀ i, t.procBusy i = false) :
    t.Counted := by
  have hslots : ∀ g, s.slots g = t.slots g + if g = f then 1 else 0 := fun g => by
    unfold FileTable.slots
    rw [htable]
    exact count_clear (h.lt fd f hf) hf g
  have hext2 : ∀ i, t.slots (.ext2 i) = s.slots (.ext2 i) := fun i => by
    rw [hslots, if_neg (hext2 i).symm, Nat.add_zero]
  refine ⟨fun fd' g hg => ?_, fun i => by rw [hsame.1, hext2, h.ref], fun i => ?_, fun i hr => ?_,
    hbusy⟩
  · exact h.lt_update (h.lt fd f hf) fd' g (htable ▸ hg)
  · unfold FileTable.Referred
    rw [hsame.2, hext2]
    exact h.ext2 i
  · refine h.proc i ?_
    unfold FileTable.Referred
    rw [hslots]
    exact Nat.lt_of_lt_of_le hr (Nat.le_add_right ..)

/-- One slot more or less refers to an ext2 file. -/
theorem FileTable.Counted.recount {t : FileTable} {x : Option FileId} (h : s.Counted)
    (hfd : fd < maxFds) (htable : t.fdTable = update s.fdTable fd x)
    (hslots : ∀ g, g ≠ .ext2 i → t.slots g = s.slots g)
    (href : t.refCount = update s.refCount (.ext2 i) (t.slots (.ext2 i)))
    (hused : t.ext2Used = update s.ext2Used i (decide (0 < t.slots (.ext2 i))))
    (hbusy : ∀ j, t.procBusy j = false) : t.Counted := by
  refine ⟨fun fd' g hg => h.lt_update hfd fd' g (htable ▸ hg), fun j => ?_, fun j => ?_,
    fun j hr => ?_, hbusy⟩
  · rw [href]
    by_cases hj : j = i
    · rw [hj, update_self]
    · have hne : FileId.ext2 j ≠ .ext2 i := fun he => hj (FileId.ext2.inj he)
      rw [update_of_ne hne, hslots _ hne, h.ref]
  · rw [hused]
    by_cases hj : j = i
    · rw [hj, update_self, decide_eq_true_iff, FileTable.Referred]
    · rw [update_of_ne hj, h.ext2, FileTable.Referred, FileTable.Referred,
        hslots _ fun he => hj (FileId.ext2.inj he)]
  · exact h.proc j (lt_of_lt_of_eq hr (hslots (.proc j) nofun))

theorem FileTable.Counted.closeSlot (h : s.Counted) (hf : s.fdTable fd = some f) :
    (s.closeSlot fd f).Counted := by
  have hfd := h.lt fd f hf
  have hclose := vfsClose_untouched s f
  have htable := (closeSlot_slots s fd f).1
  by_cases hext2 : ∀ i, f ≠ .ext2 i
  · exact h.clear hf hext2 htable (hclose.ext2 hext2) (hclose.busy h.busy)
  -- one reference less, and the object goes with the last one
  obtain ⟨i, rfl⟩ := not_forall_not.mp hext2
  have hslots := slots_closeSlot hfd hf
  have hself := hslots (.ext2 i)
  have hreferred : s.Referred (.ext2 i) := count_pos.mpr ⟨fd, hfd, hf⟩
  have hlast : s.refCount (.ext2 i) - 1 = (s.closeSlot fd (.ext2 i)).slots (.ext2 i) := by
    rw [h.ref, hself, if_pos rfl, Nat.add_sub_cancel]
  have hclosed : s.ext2CloseOp i = { s with
      refCount := update s.refCount (.ext2 i) (s.refCount (.ext2 i) - 1)
      ext2Used := if s.refCount (.ext2 i) - 1 = 0 then update s.ext2Used i false
        else s.ext2Used } := if_pos (lt_of_lt_of_eq hreferred (h.ref i).symm)
  refine h.recount (i := i) hfd htable (fun g hg => ?_) ?_ ?_ (hclose.busy h.busy)
  · rw [hslots, if_neg hg, Nat.add_zero]
  · rw [← hlast]
    exact congrArg FileTable.refCount hclosed
  · rw [← hlast]
    refine (congrArg FileTable.ext2Used hclosed).trans ?_
    dsimp only
    split_ifs with hzero
    · rw [hzero]
      rfl
    · rw [decide_eq_true (Nat.pos_of_ne_zero hzero)]
      exact (update_eq_self_iff.mpr ((h.ext2 i).mpr hreferred).symm).symm

theorem FileTable.Inv.closeSlot (h : s.Inv held) (hf : s.fdTable fd = some f)
    (hcur : ∀ i, f = .pipe i → s.pipes.Current i) :
    (s.closeSlot fd f).Inv fun g => held g ∧ g ≠ f := by
  have hclose := vfsClose_untouched s f
  have hkeep : ∀ {g : ℕ → FileId}, (∀ j, held (g j) → g j ≠ f) →
      (fun j => held (g j) ∧ g j ≠ f) = fun j => held (g j) := fun hg =>
    funext fun j => propext ⟨fun hh => hh.1, fun hh => ⟨hh, hg j hh⟩⟩
  have hgone : ∀ {g : ℕ → FileId} {i : ℕ}, f = g i → ¬ held f → ∀ j, held (g j) → g j ≠ f :=
    fun _ hi j hj he => hi (he ▸ hj)
  refine (h.counted.closeSlot hf).inv ⟨?_, ?_, ?_⟩
  · change (s.vfsClose f).pipes.Inv _
    by_cases hne : ∀ i, f ≠ .pipe i
    · rw [hclose.pipes hne, hkeep (g := FileId.pipe) fun j _ => (hne j).symm]
      exact h.pipes
    obtain ⟨i, rfl⟩ := not_forall_not.mp hne
    change (pipeCloseOp s.pipes i).Inv _
    by_cases hi : held (.pipe i)
    · simp only [ne_eq, FileId.pipe.injEq]
      exact h.pipes.close hi
    · rw [h.pipes.close_again hi (hcur i rfl), hkeep (g := FileId.pipe) (hgone rfl hi)]
      exact h.pipes
  · change (s.vfsClose f).loop.Inv _
    by_cases hne : ∀ i, f ≠ .loop i
    · rw [hclose.loop hne, hkeep (g := FileId.loop) fun j _ => (hne j).symm]
      exact h.loop
    obtain ⟨i, rfl⟩ := not_forall_not.mp hne
    unfold FileTable.vfsClose
    dsimp only
    by_cases hi : held (.loop i)
    · simp only [ne_eq, FileId.loop.injEq]
      rw [if_pos ((h.loop.ops_iff i).mpr hi)]
      exact h.loop.close hi
    · rw [if_neg (fun ho => hi ((h.loop.ops_iff i).mp ho)),
        hkeep (g := FileId.loop) (hgone rfl hi)]
      exact h.loop
  · change UdpInv (s.vfsClose f).udpFiles (s.vfsClose f).udpUsed _
    by_cases hne : ∀ i, f ≠ .udp i
    · rw [(hclose.udp hne).1, (hclose.udp hne).2, hkeep (g := FileId.udp) fun j _ => (hne j).symm]
      exact h.udp
    obtain ⟨i, rfl⟩ := not_forall_not.mp hne
    unfold FileTable.vfsClose
    dsimp only
    by_cases hi : held (.udp i)
    · have hops := (h.udp.ops_iff i).mpr hi
      obtain ⟨k, hk⟩ := Option.ne_none_iff_exists'.mp (h.udp.file_sock i hops)
      simp only [ne_eq, FileId.udp.injEq]
      rw [if_pos hops, FileTable.udpFileClose, hk]
      exact h.udp.close hi hk
    · rw [if_neg fun ho => hi ((h.udp.ops_iff i).mp ho), hkeep (g := FileId.udp) (hgone rfl hi)]
      exact h.udp

theorem FileTable.Inv.release (h : s.Inv s.Referred) (hf : s.fdTable fd = some f)
    (hrel : s.Releasable f) : (s.closeSlot fd f).Inv (s.closeSlot fd f).Referred := by
  have hfd := h.lt fd f hf
  refine (h.closeSlot hf fun i hi => .inl (h.pipes.held i ?_)).congr fun g hg => ?_
  · rw [← hi]
    exact count_pos.mpr ⟨fd, hfd, hf⟩
  · have hslots := slots_closeSlot hfd hf g
    unfold FileTable.Referred
    by_cases hgf : g = f
    · subst hgf
      have hone := hrel.resolve_left fun hc => Bool.false_ne_true (hg.symm.trans hc)
      rw [if_pos rfl] at hslots
      exact iff_of_false (by omega) fun hn => hn.2 rfl
    · rw [if_neg hgf, Nat.add_zero] at hslots
      rw [hslots]
      exact ⟨fun hh => ⟨hh, hgf⟩, fun hh => hh.1⟩

/-! ### The end of a process -/

/-- While the slots of process `pid` are being emptied: a file object that counts as gone is only
referred to by slots that are still to be emptied. -/
structure Exiting (s : FileTable) (pid : ℤ) (held : FileId → Prop) : Prop where
  inv : s.Inv held
  refers : ∀ f, f.counted = false → held f → s.Referred f
  gone : ∀ fd f, s.fdTable fd = some f → f.counted = false → ¬ held f → s.fdOwner fd = pid
  own : ∀ fd fd' f, s.fdTable fd = some f → s.fdOwner fd = pid → f.counted = false →
    s.fdTable fd' = some f → s.fdOwner fd' = pid
  current : ∀ fd i, s.fdTable fd = some (.pipe i) → s.pipes.Current i

theorem pipes_vfsClose_current (s : FileTable) (f : FileId) (h : s.pipes.Current i) :
    (s.vfsClose f).pipes.Current i := by
  by_cases hne : ∀ j, f ≠ .pipe j
  · rwa [(vfsClose_untouched s f).pipes hne]
  · obtain ⟨j, rfl⟩ := not_forall_not.mp hne
    exact h.close

theorem Exiting.closeSlot (h : Exiting s pid held) (hf : s.fdTable fd = some f)
    (ho : s.fdOwner fd = pid) : Exiting (s.closeSlot fd f) pid fun g => held g ∧ g ≠ f := by
  have hslot : ∀ {fd' g}, (s.closeSlot fd f).fdTable fd' = some g →
      s.fdTable fd' = some g ∧ (s.closeSlot fd f).fdOwner fd' = s.fdOwner fd' := by
    intro fd' g hg
    rw [(closeSlot_slots s fd f).1] at hg
    rw [(closeSlot_slots s fd f).2]
    by_cases hfd : fd' = fd
    · rw [hfd, update_self] at hg
      cases hg
    · rw [update_of_ne hfd] at hg ⊢
      exact ⟨hg, rfl⟩
  refine ⟨h.inv.closeSlot hf fun i hi => h.current fd i (hi ▸ hf), fun g hg hheld => ?_,
    fun fd' g hg hc hn => ?_, fun fd₁ fd₂ g h₁ ho₁ hc h₂ => ?_, fun fd' i hi => ?_⟩
  · have hslots := slots_closeSlot (h.inv.lt fd f hf) hf g
    rw [if_neg hheld.2, Nat.add_zero] at hslots
    exact lt_of_lt_of_eq (h.refers g hg hheld.1) hslots
  · obtain ⟨hg', howner⟩ := hslot hg
    rw [howner]
    by_cases hgf : g = f
    · subst hgf
      exact h.own fd fd' g hf ho hc hg'
    · exact h.gone fd' g hg' hc fun hh => hn ⟨hh, hgf⟩
  · obtain ⟨h₁', howner₁⟩ := hslot h₁
    obtain ⟨h₂', howner₂⟩ := hslot h₂
    rw [howner₂]
    exact h.own fd₁ fd₂ g h₁' (howner₁.symm.trans ho₁) hc h₂'
  · exact pipes_vfsClose_current s f (h.current fd' i (hslot hi).1)

def NotOf (s : FileTable) (pid : ℤ) (fd : ℕ) : Prop := s.fdTable fd ≠ none → s.fdOwner fd ≠ pid

theorem NotOf.closeRound (s : FileTable) (fd fd' : ℕ)
    (h : fd' = fd ∨ NotOf s pid fd') : NotOf (s.closeRound pid fd) pid fd' := by
  unfold FileTable.closeRound
  rcases hf : s.fdTable fd with _ | f
  · rcases h with rfl | h
    · exact fun hn => absurd hf hn
    · exact h
  · dsimp only
    split_ifs with ho
    · unfold NotOf
      rw [(closeSlot_slots s fd f).1, (closeSlot_slots s fd f).2]
      by_cases hfd : fd' = fd
      · rw [hfd, update_self]
        exact fun hn => absurd rfl hn
      · rw [update_of_ne hfd, update_of_ne hfd]
        exact h.resolve_left hfd
    · rcases h with rfl | h
      · exact fun _ => ho
      · exact h

theorem Exiting.foldl (h : Exiting s pid held) (fds : List ℕ) :
    (∃ held', Exiting (fds.foldl (FileTable.closeRound pid) s) pid held') ∧
      ∀ fd, fd ∈ fds ∨ NotOf s pid fd → NotOf (fds.foldl (FileTable.closeRound pid) s) pid fd := by
  induction fds generalizing s held with
  | nil => exact ⟨⟨held, h⟩, fun fd hfd => hfd.resolve_left List.not_mem_nil⟩
  | cons fd fds ih =>
    obtain ⟨held', hround⟩ : ∃ held', Exiting (s.closeRound pid fd) pid held' := by
      unfold FileTable.closeRound
      rcases hf : s.fdTable fd with _ | f
      · exact ⟨held, h⟩
      · dsimp only
        split_ifs with ho
        · exact ⟨_, h.closeSlot hf ho⟩
        · exact ⟨held, h⟩
    obtain ⟨hex, hnot⟩ := ih hround
    refine ⟨hex, fun fd' hfd' => hnot fd' ?_⟩
    rcases hfd' with hmem | hn
    · rcases List.mem_cons.mp hmem with rfl | hmem
      · exact .inr (NotOf.closeRound s fd' fd' (.inl rfl))
      · exact .inl hmem
    · exact .inr (NotOf.closeRound s fd fd' (.inr hn))

theorem FileTable.Inv.closeAll (h : s.Inv s.Referred) (hok : s.Careful (pid, .exit)) :
    (s.vfsFdCloseAll pid).Inv (s.vfsFdCloseAll pid).Referred := by
  unfold FileTable.vfsFdCloseAll
  split_ifs with hpid
  · exact h
  have hexit : Exiting s pid s.Referred := by
    refine ⟨h, fun f _ hr => hr, fun fd f hf _ hn => absurd (count_pos.mpr ⟨fd, h.lt fd f hf, hf⟩) hn,
      fun fd fd' f hf ho hc hf' => hok (not_le.mp hpid) fd (h.lt fd f hf) ho f hf hc fd'
        (h.lt fd' f hf') hf', fun fd i hi => .inl (h.pipes.held i ?_)⟩
    exact count_pos.mpr ⟨fd, h.lt fd _ hi, hi⟩
  obtain ⟨⟨held', hdone⟩, hnot⟩ := hexit.foldl (List.range maxFds)
  refine hdone.inv.congr fun f hc => ⟨fun hr => ?_, hdone.refers f hc⟩
  obtain ⟨fd, hfd, hf⟩ := count_pos.mp hr
  by_contra hn
  exact hnot fd (.inl (List.mem_range.mpr hfd)) (by rw [hf]; exact Option.some_ne_none f)
    (hdone.gone fd f hf hc hn)

end Close

/-! ## Filling a slot -/

section Fill

variable {s : FileTable} {held : FileId → Prop} {fd : ℕ} {f : FileId} {pid : ℤ}

theorem freeFd_eq_some {m : ℕ} (h : s.freeFd m = some fd) :
    m ≤ fd ∧ fd < maxFds ∧ s.fdTable fd = none := by
  obtain ⟨hle, hlt, hfree⟩ := firstFree_eq_some h
  exact ⟨hle, hlt, Option.not_isSome_iff_eq_none.mp (by simp [hfree])⟩

theorem slots_setFd (hfd : fd < maxFds) (hf : s.fdTable fd = none) (pid : ℤ) (f g : FileId) :
    (s.setFd pid fd f).slots g = s.slots g + if g = f then 1 else 0 :=
  count_fill hfd hf f g

theorem FileTable.Inv.fill (h : s.Inv held) (hfd : fd < maxFds) (hf : s.fdTable fd = none)
    (hext2 : ∀ i, f ≠ .ext2 i) (hproc : ∀ i, f ≠ .proc i) (pid : ℤ) :
    (s.setFd pid fd f).Inv held := by
  have hsame : ∀ g, g ≠ f → (s.setFd pid fd f).slots g = s.slots g := fun g hg => by
    rw [slots_setFd hfd hf, if_neg hg, Nat.add_zero]
  refine ⟨h.counted.lt_update hfd, fun i => ?_, fun i => ?_, fun i => ?_, h.busy, h.pipes, h.loop,
    h.udp⟩
  · rw [hsame _ (hext2 i).symm]
    exact h.ref i
  · unfold FileTable.Referred
    rw [hsame _ (hext2 i).symm]
    exact h.ext2 i
  · unfold FileTable.Referred
    rw [hsame _ (hproc i).symm]
    exact h.proc i

theorem referred_setFd (hfd : fd < maxFds) (hf : s.fdTable fd = none) (g : FileId) :
    (s.setFd pid fd f).Referred g ↔ s.Referred g ∨ g = f := by
  unfold FileTable.Referred
  rw [slots_setFd hfd hf]
  split_ifs with hg
  · exact iff_of_true (Nat.succ_pos _) (.inr hg)
  · rw [Nat.add_zero, or_iff_left hg]

theorem FileTable.Inv.setRefCount (h : s.Inv held) (hext2 : ∀ i, f ≠ .ext2 i) (n : ℕ) :
    ({ s with refCount := update s.refCount f n } : FileTable).Inv held :=
  ⟨h.lt, fun i => (update_of_ne (hext2 i).symm ..).trans (h.ref i), h.ext2, h.proc, h.busy,
    h.pipes, h.loop, h.udp⟩

theorem FileTable.Inv.fillExt2 {n : ℕ} (h : s.Inv held) (hfd : fd < maxFds)
    (hf : s.fdTable fd = none) (hn : n = s.slots (.ext2 i) + 1)
    (hused : used = update s.ext2Used i true) :
    (({ s with refCount := update s.refCount (.ext2 i) n, ext2Used := used } :
      FileTable).setFd pid fd (.ext2 i)).Inv held := by
  have hslots := fun g => count_fill hfd hf (.ext2 i) g
  have hself := hslots (.ext2 i)
  rw [if_pos rfl] at hself
  refine FileTable.Counted.inv ?_ ⟨h.pipes, h.loop, h.udp⟩
  refine h.counted.recount (i := i) hfd rfl (fun g hg => ?_) ?_ ?_ h.busy
  · exact (hslots g).trans (by rw [if_neg hg, Nat.add_zero]; rfl)
  · exact congrArg (update s.refCount (.ext2 i)) (hn.trans hself.symm)
  · refine hused.trans (congrArg (update s.ext2Used i) (decide_eq_true ?_).symm)
    exact lt_of_lt_of_eq (Nat.succ_pos _) hself.symm

theorem FileTable.Inv.addSlot (h : s.Inv s.Referred) (hfd : fd < maxFds) (hf : s.fdTable fd = none)
    (hr : f.isDev = true ∨ s.Referred f) :
    ((s.setFd pid fd f).addRef f).Inv ((s.setFd pid fd f).addRef f).Referred := by
  have haddRef : ((s.setFd pid fd f).addRef f).Referred = (s.setFd pid fd f).Referred := by
    unfold FileTable.addRef
    split_ifs <;> rfl
  -- for pipes and sockets, which are held already, nothing changes
  have hheld : ∀ g, g.counted = false → ((s.setFd pid fd f).Referred g ↔ s.Referred g) := by
    intro g hg
    rw [referred_setFd hfd hf]
    refine ⟨fun hh => hh.elim id ?_, .inl⟩
    rintro rfl
    refine hr.resolve_left fun hdev => ?_
    cases g with
    | dev i => exact Bool.false_ne_true hg.symm
    | _ => exact Bool.false_ne_true hdev
  rw [haddRef]
  have hplain : (∀ i, f ≠ .ext2 i) → (∀ i, f ≠ .proc i) →
      ((s.setFd pid fd f).addRef f).Inv s.Referred := by
    intro hext2 hproc
    have hfill := h.fill hfd hf hext2 hproc pid
    unfold FileTable.addRef
    split_ifs
    · exact hfill.setRefCount hext2 _
    · exact hfill
  cases f with
  | ext2 i =>
    have hpos : 0 < s.refCount (.ext2 i) := by
      rw [h.ref]
      exact hr.resolve_left Bool.false_ne_true
    have hslot : (s.setFd pid fd (.ext2 i)).addRef (.ext2 i) =
        (({ s with
          refCount := update s.refCount (.ext2 i) (s.refCount (.ext2 i) + 1)
          ext2Used := s.ext2Used } : FileTable).setFd pid fd (.ext2 i)) := if_pos hpos
    rw [hslot]
    refine (h.fillExt2 hfd hf (congrArg (· + 1) (h.ref i)) ?_).congr hheld
    refine (update_eq_self_iff.mpr ?_).symm
    exact ((h.ext2 i).mpr (hr.resolve_left Bool.false_ne_true)).symm
  | proc i => exact absurd (hr.resolve_left Bool.false_ne_true) (h.proc i)
  | dev i => exact (hplain nofun nofun).congr hheld
  | pipe i => exact (hplain nofun nofun).congr hheld
  | loop i => exact (hplain nofun nofun).congr hheld
  | udp i => exact (hplain nofun nofun).congr hheld

theorem FileTable.Inv.dup2 (h : s.Inv s.Referred) {oldfd newfd : ℕ}
    (hok : s.Careful (pid, .dup2 oldfd newfd)) :
    (s.sysDup2 pid oldfd newfd).2.Inv (s.sysDup2 pid oldfd newfd).2.Referred := by
  unfold FileTable.sysDup2 FileTable.vfsFdDup2
  dsimp only
  split_ifs with hrange
  · exact h
  rw [not_or, not_le, not_le] at hrange
  rcases hold : s.fdTable oldfd with _ | f
  · exact h
  have hf : s.Referred f := count_pos.mpr ⟨oldfd, hrange.1, hold⟩
  dsimp only
  rcases hnew : s.fdTable newfd with _ | g
  · exact h.addSlot hrange.2 hnew (.inr hf)
  · have hg := hok hrange.1 hrange.2 (by rw [hold]; exact Option.some_ne_none f) g hnew
    have heq : (FileTable.setFd { s.vfsClose g with
        fdTable := update (s.vfsClose g).fdTable newfd none } pid newfd f) =
        (s.closeSlot newfd g).setFd pid newfd f := by
      unfold FileTable.closeSlot FileTable.vfsFdFree FileTable.setFd
      dsimp only
      rw [update_idem, update_idem]
    have hfree : (s.closeSlot newfd g).fdTable newfd = none := by
      rw [(closeSlot_slots s newfd g).1, update_self]
    have hslots := slots_closeSlot hrange.2 hnew f
    dsimp only
    rw [heq]
    unfold FileTable.Replaceable at hg
    by_cases hgf : g = f
    · -- the same file object: it has to survive
      subst hgf
      rw [if_pos hold] at hg
      rw [if_pos rfl] at hslots
      refine (h.release hnew (.inl hg.1)).addSlot hrange.2 hfree ?_
      by_cases hsame : oldfd = newfd
      · refine (hg.2 hsame).imp id fun htwo => ?_
        unfold FileTable.Referred
        omega
      · refine .inr (count_pos.mpr ⟨oldfd, hrange.1, ?_⟩)
        rw [(closeSlot_slots s newfd g).1, update_of_ne hsame, hold]
    · rw [if_neg fun he => hgf (Option.some.inj (hold.symm.trans he)).symm] at hg
      rw [if_neg fun he => hgf he.symm, Nat.add_zero] at hslots
      exact (h.release hnew hg).addSlot hrange.2 hfree (.inr (lt_of_lt_of_eq hf hslots))

theorem vfsFdAlloc_cases (s : FileTable) (pid : ℤ) (f : FileId) :
    (s.freeFd 3 = none ∧ s.vfsFdAlloc pid f = (none, s)) ∨
      ∃ fd < maxFds, s.freeFd 3 = some fd ∧ s.fdTable fd = none ∧
        s.vfsFdAlloc pid f = (some fd, s.setFd pid fd f) := by
  unfold FileTable.vfsFdAlloc
  rcases hfree : s.freeFd 3 with _ | fd
  · exact .inl ⟨rfl, rfl⟩
  · obtain ⟨-, hlt, hnone⟩ := freeFd_eq_some hfree
    exact .inr ⟨fd, hlt, rfl, hnone, rfl⟩

theorem FileTable.Inv.dup (h : s.Inv s.Referred) :
    (s.sysDup pid fd).2.Inv (s.sysDup pid fd).2.Referred := by
  unfold FileTable.sysDup FileTable.vfsFdGet
  split_ifs with hfd
  · rcases hf : s.fdTable fd with _ | f
    · exact h
    · dsimp only
      rcases vfsFdAlloc_cases s pid f with ⟨-, halloc⟩ | ⟨nfd, hlt, -, hnone, halloc⟩
      · rw [halloc]
        exact h
      · rw [halloc]
        exact h.addSlot hlt hnone (.inr (count_pos.mpr ⟨fd, hfd, hf⟩))
  · exact h

theorem FileTable.Inv.dupfd (h : s.Inv s.Referred) (m : ℕ) :
    (s.sysDupfd pid fd m).2.Inv (s.sysDupfd pid fd m).2.Referred := by
  unfold FileTable.sysDupfd FileTable.vfsFdGet FileTable.vfsFdAllocMin
  split_ifs with hfd
  · rcases hf : s.fdTable fd with _ | f
    · exact h
    · dsimp only
      rcases hfree : s.freeFd (max m 3) with _ | nfd
      · exact h
      · obtain ⟨-, hlt, hnone⟩ := freeFd_eq_some hfree
        exact h.addSlot hlt hnone (.inr (count_pos.mpr ⟨fd, hfd, hf⟩))
  · exact h

theorem FileTable.Inv.close (h : s.Inv s.Referred) (hok : ∀ f ∈ s.vfsFdGet fd, s.Releasable f) :
    (s.sysClose fd).2.Inv (s.sysClose fd).2.Referred := by
  unfold FileTable.sysClose
  rcases hf : s.vfsFdGet fd with _ | f
  · exact h
  · exact h.release ((if_pos (Option.ite_none_right_eq_some.mp hf).1).symm.trans hf) (hok f hf)

end Fill

/-! ## New file objects -/

section New

variable {s : FileTable} {held : FileId → Prop} {fd : ℕ} {f : FileId} {pid : ℤ}

theorem FileTable.Inv.setPools (h : s.Inv held) {held' : FileId → Prop} {t : FileTable}
    (htable : t.fdTable = s.fdTable) (href : ∀ i, t.refCount (.ext2 i) = s.refCount (.ext2 i))
    (hused : t.ext2Used = s.ext2Used) (hbusy : t.procBusy = s.procBusy) (hpools : t.Pools held') :
    t.Inv held' := by
  have hslots : t.slots = s.slots := by
    unfold FileTable.slots
    rw [htable]
  have hreferred : t.Referred = s.Referred := by
    unfold FileTable.Referred
    rw [hslots]
  refine FileTable.Counted.inv ⟨fun fd g hg => h.lt fd g (htable ▸ hg), fun i => ?_, fun i => ?_,
    fun i => ?_, fun i => ?_⟩ hpools
  · rw [href, hslots]
    exact h.ref i
  · rw [hused, hreferred]
    exact h.ext2 i
  · rw [hreferred]
    exact h.proc i
  · rw [hbusy]
    exact h.busy i

theorem refCount_setRef (hf : ∀ i, f ≠ .ext2 i) (i : ℕ) :
    (s.setRef f).refCount (.ext2 i) = s.refCount (.ext2 i) :=
  update_of_ne (hf i).symm ..

theorem FileTable.Inv.openSlot {t : FileTable} (ht : t.Inv fun g => s.Referred g ∨ g = f)
    (htable : t.fdTable = s.fdTable) (hfd : fd < maxFds) (hf : s.fdTable fd = none)
    (hext2 : ∀ i, f ≠ .ext2 i) (hproc : ∀ i, f ≠ .proc i) :
    (t.setFd pid fd f).Inv (t.setFd pid fd f).Referred := by
  have hft : t.fdTable fd = none := by rw [htable, hf]
  refine (ht.fill hfd hft hext2 hproc pid).congr fun g _ => ?_
  rw [referred_setFd hfd hft]
  unfold FileTable.Referred FileTable.slots
  rw [htable]

theorem FileTable.Inv.openDev (h : s.Inv s.Referred) (i : ℕ) :
    (s.openDev pid i).2.Inv (s.openDev pid i).2.Referred := by
  unfold FileTable.openDev FileTable.openFd
  rcases vfsFdAlloc_cases s pid (.dev i) with ⟨-, halloc⟩ | ⟨fd, hfd, -, hnone, halloc⟩
  · rw [halloc]
    exact h
  · rw [halloc]
    refine (h.fill (f := .dev i) hfd hnone nofun nofun pid).congr fun g hg => ?_
    rw [referred_setFd hfd hnone, or_iff_left]
    rintro rfl
    exact Bool.false_ne_true hg.symm

theorem ext2CloseOp_last (h : s.refCount (.ext2 i) = 1) : s.ext2CloseOp i = { s with
      refCount := update s.refCount (.ext2 i) 0
      ext2Used := update s.ext2Used i false } := by
  unfold FileTable.ext2CloseOp
  simp only [h, one_pos, if_true, Nat.sub_self]

theorem FileTable.Inv.openExt2 (h : s.Inv s.Referred) {denied : Bool}
    (hok : s.Careful (pid, .openExt2 denied)) :
    (s.openExt2 pid denied).2.Inv (s.openExt2 pid denied).2.Referred := by
  unfold FileTable.openExt2
  rcases hpool : firstFree s.ext2Used 0 ext2PoolSize with _ | i
  · exact h
  have hfree : s.ext2Used i = false := (firstFree_eq_some hpool).2.2
  have hzero : s.slots (.ext2 i) = 0 := Nat.eq_zero_of_not_pos fun hr =>
    Bool.false_ne_true (hfree.symm.trans ((h.ext2 i).mpr hr))
  dsimp only
  split_ifs with hdenied
  · -- the file object is given back at once
    have hsame : FileTable.vfsClose { s.setRef (.ext2 i) with
        ext2Used := update s.ext2Used i true } (.ext2 i) = s := by
      have href : update s.refCount (.ext2 i) 0 = s.refCount :=
        update_eq_self_iff.mpr (by rw [h.ref, hzero])
      refine (ext2CloseOp_last (update_self ..)).trans ?_
      unfold FileTable.setRef
      dsimp only
      rw [update_idem, update_idem, href, ← hfree, update_eq_self]
    rw [hsame]
    exact h
  · have hfd := (hok.resolve_left hdenied).resolve_left (by rw [hpool]; exact Option.some_ne_none i)
    unfold FileTable.openFd
    rcases vfsFdAlloc_cases { s.setRef (.ext2 i) with ext2Used := update s.ext2Used i true }
      pid (.ext2 i) with ⟨hnone, -⟩ | ⟨fd, hlt, -, hnone, halloc⟩
    · exact absurd hnone hfd
    · rw [halloc]
      refine (h.fillExt2 hlt hnone (by rw [hzero]) rfl).congr fun g hg => ?_
      refine (referred_setFd hlt hnone g).trans (or_iff_left ?_)
      rintro rfl
      exact Bool.false_ne_true hg.symm

theorem FileTable.Inv.openProc (h : s.Inv s.Referred) {known : Bool}
    (hok : s.Careful (pid, .openProc known)) :
    (s.openProc pid known).2.Inv (s.openProc pid known).2.Referred := by
  unfold FileTable.openProc
  rcases firstFree s.procBusy 0 procPool with _ | i
  · exact h
  dsimp only
  split_ifs with hknown
  · -- there is no slot for it
    have hfull := hok.resolve_left fun hk => Bool.false_ne_true (hk.symm.trans hknown)
    unfold FileTable.openFd
    rcases vfsFdAlloc_cases (s.setRef (.proc i)) pid (.proc i) with ⟨-, halloc⟩ | ⟨fd, -, hsome, -, -⟩
    · rw [halloc]
      exact h.setRefCount (f := .proc i) nofun 1
    · exact absurd (hsome.symm.trans hfull) (Option.some_ne_none fd)
  · have hsame : update s.procBusy i false = s.procBusy :=
      update_eq_self_iff.mpr (h.busy i).symm
    dsimp only
    rw [hsame]
    exact h

theorem pipeCreate_fst_eq_none {P : PipePool} {mem : Bool}
    (h : mem = false ∨ firstFree (fun p => (P.pipes p).inUse) 0 maxPipes = none) :
    (pipeCreate P mem).1 = none := by
  have halloc : pipeAlloc P mem = (none, P) := by
    unfold pipeAlloc
    rcases h with rfl | hfull
    · rcases firstFree (fun p => (P.pipes p).inUse) 0 maxPipes with _ | p
      · rfl
      · rfl
    · rw [hfull]
  unfold pipeCreate
  rw [halloc]

theorem freeFd_setFd_ne_none {fd₂ : ℕ} (h₁ : s.freeFd 3 = some fd)
    (h₂ : s.freeFd (fd + 1) = some fd₂) (pid : ℤ) (f : FileId) :
    (s.setFd pid fd f).freeFd 3 ≠ none := by
  obtain ⟨hle, -, -⟩ := freeFd_eq_some h₁
  obtain ⟨hle₂, hlt₂, hnone⟩ := freeFd_eq_some h₂
  refine firstFree_ne_none (i := fd₂) (by omega) hlt₂ ?_
  unfold FileTable.setFd
  dsimp only
  rw [update_of_ne (by omega), hnone]
  rfl

theorem FileTable.Inv.pipe (h : s.Inv s.Referred) {mem : Bool} (hok : s.Careful (pid, .pipe mem)) :
    (s.sysPipe pid mem).2.Inv (s.sysPipe pid mem).2.Referred := by
  unfold FileTable.sysPipe
  have hcreate := pipeCreate_cases s.pipes mem
  have hfail : _ → (pipeCreate s.pipes mem).1 = none := pipeCreate_fst_eq_none
  generalize pipeCreate s.pipes mem = r at hcreate hfail
  cases hcreate with
  | failed P hfiles hpipes =>
    exact h.setPools rfl (fun _ => rfl) rfl rfl ⟨h.pipes.congr hfiles hpipes, h.loop, h.udp⟩
  | created p r w hp hfree hr hw hne hru hwu =>
    obtain ⟨fd, hfd, hfd₂⟩ : ∃ fd ∈ s.freeFd 3, s.freeFd (fd + 1) ≠ none := by
      rcases hok with hmem | hfull | hfds
      · exact absurd (hfail (.inl hmem)) (Option.some_ne_none _)
      · exact absurd (hfail (.inr hfull)) (Option.some_ne_none _)
      · exact hfds
    obtain ⟨fd₂, hfd₂⟩ := Option.ne_none_iff_exists'.mp hfd₂
    dsimp only
    generalize hs₁ : FileTable.setRef (FileTable.setRef { s with
      pipes := ⟨update s.pipes.pipes p ⟨1, 1, true⟩,
        update (update s.pipes.files r ⟨true, p, true⟩) w ⟨true, p, false⟩⟩ }
      (.pipe r)) (.pipe w) = s₁
    have htable : s₁.fdTable = s.fdTable := by rw [← hs₁]; rfl
    have hinv : s₁.Inv fun g => (s.Referred g ∨ g = .pipe r) ∨ g = .pipe w := by
      refine h.setPools htable (fun i => ?_) (by rw [← hs₁]; rfl) (by rw [← hs₁]; rfl)
        ⟨?_, ?_, ?_⟩
      · rw [← hs₁, refCount_setRef (f := .pipe w) nofun, refCount_setRef (f := .pipe r) nofun]
      · simp only [FileId.pipe.injEq, or_assoc]
        rw [← hs₁]
        exact h.pipes.create hp hfree hr hw hne hru hwu
      · simp only [reduceCtorEq, or_false]
        rw [← hs₁]
        exact h.loop
      · simp only [reduceCtorEq, or_false]
        rw [← hs₁]
        exact h.udp
    have hfree₁ : s₁.freeFd = s.freeFd := by
      unfold FileTable.freeFd
      rw [htable]
    rcases vfsFdAlloc_cases s₁ pid (.pipe r) with ⟨hnone, -⟩ | ⟨fd₁, hlt, hsome, hnone, halloc⟩
    · rw [hfree₁, hfd] at hnone
      cases hnone
    rw [halloc]
    dsimp only
    obtain rfl : fd = fd₁ := Option.some.inj (hfd.symm.trans ((congrFun hfree₁ 3).symm.trans hsome))
    have hnext := freeFd_setFd_ne_none hsome ((congrFun hfree₁ (fd + 1)).trans hfd₂) pid (.pipe r)
    rcases vfsFdAlloc_cases (s₁.setFd pid fd (.pipe r)) pid (.pipe w) with
      ⟨hnone₂, -⟩ | ⟨fd₃, hlt₃, -, hnone₃, halloc₃⟩
    · exact absurd hnone₂ hnext
    rw [halloc₃]
    dsimp only
    refine FileTable.Inv.openSlot (s := s₁.setFd pid fd (.pipe r)) (f := .pipe w) ?_ rfl hlt₃ hnone₃
      nofun nofun
    refine (hinv.fill (f := .pipe r) hlt hnone nofun nofun pid).congr fun g _ => ?_
    rw [referred_setFd hlt hnone]
    unfold FileTable.Referred FileTable.slots
    rw [htable]

/-! ### Sockets -/

theorem FileTable.Inv.newLoop (h : s.Inv s.Referred) {N : LoopNet}
    (hN : N.Inv fun j => s.Referred (.loop j) ∨ j = i) :
    (FileTable.setRef { s with loop := N } (.loop i)).Inv fun g => s.Referred g ∨ g = .loop i := by
  refine h.setPools rfl (fun j => refCount_setRef (f := .loop i) nofun j) rfl rfl ⟨?_, ?_, ?_⟩
  · simp only [reduceCtorEq, or_false]
    exact h.pipes
  · simp only [FileId.loop.injEq]
    exact hN
  · simp only [reduceCtorEq, or_false]
    exact h.udp

theorem FileTable.Inv.socketStream (h : s.Inv s.Referred) :
    (s.socketStream pid).2.Inv (s.socketStream pid).2.Referred := by
  unfold FileTable.socketStream
  have hmade := loopSocketFile_cases s.loop
  generalize loopSocketFile s.loop = r at hmade
  cases hmade with
  | failed => exact h
  | undone k hk =>
    exact h.setPools rfl (fun _ => rfl) rfl rfl ⟨h.pipes, h.loop.setSock_unused hk rfl, h.udp⟩
  | made i k hi hk =>
    dsimp only
    have hnew := h.newLoop (h.loop.socket hi hk)
    generalize hs₁ : FileTable.setRef { s with
      loop := (s.loop.setSock k ⟨true, .fresh, none, none⟩).setFile i ⟨true, some k⟩ } (.loop i) = s₁
      at hnew
    have htable : s₁.fdTable = s.fdTable := by rw [← hs₁]; rfl
    rcases vfsFdAlloc_cases s₁ pid (.loop i) with ⟨-, halloc⟩ | ⟨fd, hlt, -, hnone, halloc⟩
    · rw [halloc, ← hs₁]
      exact h.setPools rfl (fun j => refCount_setRef (f := .loop i) nofun j) rfl rfl
        ⟨h.pipes, h.loop.undo hi hk, h.udp⟩
    · rw [halloc]
      exact hnew.openSlot htable hlt (by rw [← htable, hnone]) nofun nofun

theorem UdpInv.new {files : ℕ → SockFile} {held : ℕ → Prop}
    (h : UdpInv files used held) {k : ℕ} (hi : (files i).ops = false) (hk : used k = false) :
    UdpInv (update files i ⟨true, some k⟩) (update used k true)
      fun j => held j ∨ j = i := by
  have hnone : (SockFile.held ∘ files) i = none := SockFile.held_of_closed hi
  have hunused : ¬ used k = true := fun hu => Bool.false_ne_true (hk.symm.trans hu)
  refine ⟨fun j => ?_, ?_, ((h.socks.owned.take (fun _ => hnone) hunused).congr
    (Function.comp_update ..) (update_live_iff (P := fun b => b = true) rfl)).owns⟩
  · rw [← h.ops_iff j]
    exact update_live_iff (P := fun f : SockFile => f.ops = true) rfl j
  · exact (Function.forall_update_iff files fun _ f => f.ops = true → f.sock ≠ none).mpr
      ⟨fun _ => Option.some_ne_none k, fun j _ => h.file_sock j⟩

theorem UdpInv.congr_unused {files : ℕ → SockFile} {held : ℕ → Prop}
    (h : UdpInv files used held) (hi : (files i).ops = false) {f : SockFile}
    (hf : f.ops = false) : UdpInv (update files i f) used held := by
  have hoff : ¬ f.ops = true := fun ho => Bool.false_ne_true (hf.symm.trans ho)
  refine ⟨fun j => ?_, ?_, (h.socks.owned.congr ((Function.comp_update ..).trans
    (update_eq_self_iff.mpr (SockFile.held_congr (.inr ⟨hf, hi⟩)))) fun _ => .rfl).owns⟩
  · rw [← h.ops_iff j]
    exact update_same_iff (P := fun f : SockFile => f.ops = true) (by rw [hf, hi]) j
  · exact (Function.forall_update_iff files fun _ f => f.ops = true → f.sock ≠ none).mpr
      ⟨fun hn => absurd hn hoff, fun j _ => h.file_sock j⟩

variable (h : s.Inv s.Referred)

include h

theorem FileTable.Inv.socketDgram : (s.socketDgram pid).2.Inv (s.socketDgram pid).2.Referred := by
  unfold FileTable.socketDgram
  rcases hsock : firstFree s.udpUsed 0 udpSockMax with _ | k
  · exact h
  rcases hfile : firstFree (fun i => (s.udpFiles i).ops) 0 udpSockMax with _ | i
  · exact h
  have hk : s.udpUsed k = false := (firstFree_eq_some hsock).2.2
  have hi : (s.udpFiles i).ops = false := (firstFree_eq_some hfile).2.2
  have href := fun j => refCount_setRef (s := s) (f := .udp i) nofun j
  dsimp only
  generalize hs₁ : ({ s.setRef (.udp i) with
    udpUsed := update s.udpUsed k true
    udpFiles := update s.udpFiles i ⟨true, some k⟩ } : FileTable) = s₁
  have htable : s₁.fdTable = s.fdTable := by rw [← hs₁]; rfl
  rcases vfsFdAlloc_cases s₁ pid (.udp i) with ⟨-, halloc⟩ | ⟨fd, hlt, -, hnone, halloc⟩
  · -- no slot: socket and file object are given back
    rw [halloc, ← hs₁]
    refine h.setPools rfl href rfl rfl ⟨h.pipes, h.loop, ?_⟩
    dsimp only
    have hused : update s.udpUsed k false = s.udpUsed :=
      update_eq_self_iff.mpr hk.symm
    rw [update_idem, update_idem, hused]
    exact h.udp.congr_unused hi rfl
  · rw [halloc]
    refine FileTable.Inv.openSlot (s := s) (f := .udp i) ?_ htable hlt (by rw [← htable, hnone])
      nofun nofun
    rw [← hs₁]
    refine h.setPools rfl href rfl rfl ⟨?_, ?_, ?_⟩
    · simp only [reduceCtorEq, or_false]
      exact h.pipes
    · simp only [reduceCtorEq, or_false]
      exact h.loop
    · simp only [FileId.udp.injEq]
      exact h.udp.new hi hk

theorem FileTable.Inv.accept (hf : s.vfsFdGet fd = some (.loop i))
    (hi : s.Referred (.loop i)) (hok : s.Careful (pid, .accept fd)) :
    (s.accept pid i).2.Inv (s.accept pid i).2.Referred := by
  unfold FileTable.accept
  rcases hl : acceptFrom s.loop i with e | l
  · exact h
  obtain ⟨hsock, hfile, hfd⟩ := hok i (by rw [hf]; rfl) (by rw [hl]; rfl)
  obtain ⟨hused, hpos⟩ := h.loop.tied.acceptFrom_eq_ok ((h.loop.ops_iff i).mpr hi) hl
  obtain ⟨j, hj⟩ := Option.ne_none_iff_exists'.mp (loopAcceptFile_ne_none l hsock hfile)
  have hnew := h.newLoop (h.loop.accept hused hpos hj).2
  rcases hr : loopAcceptFile s.loop l with ⟨r, N⟩
  rw [hr] at hj hnew
  dsimp only at hj hnew ⊢
  rw [hr, hj]
  dsimp only
  rcases vfsFdAlloc_cases (FileTable.setRef { s with loop := N } (.loop j)) pid (.loop j) with
    ⟨hnone, -⟩ | ⟨fd', hlt, -, hnone, halloc⟩
  · exact absurd hnone hfd
  · rw [halloc]
    exact hnew.openSlot rfl hlt hnone nofun nofun

theorem FileTable.Inv.onSocket {op : ℕ → FileTable} {t : FileTable}
    (hstep : s.onSocket fd op = some t)
    (hop : ∀ i, s.vfsFdGet fd = some (.loop i) → s.Referred (.loop i) → (op i).Inv (op i).Referred) :
    t.Inv t.Referred := by
  unfold FileTable.onSocket at hstep
  rcases hf : s.vfsFdGet fd with _ | f
  · rw [hf] at hstep
    cases hstep
    exact h
  rw [hf] at hstep
  cases f with
  | loop i =>
    cases hstep
    obtain ⟨hlt, hslot⟩ := Option.ite_none_right_eq_some.mp hf
    exact hop i hf (count_pos.mpr ⟨fd, hlt, hslot⟩)
  | udp i =>
    cases hstep
    exact h
  | dev i => cases hstep
  | ext2 i => cases hstep
  | pipe i => cases hstep
  | proc i => cases hstep

theorem FileTable.Inv.wireStd : (s.wireStd pid).Inv (s.wireStd pid).Referred := by
  unfold FileTable.wireStd
  have hfds : ∀ fd ∈ List.range 3, fd < maxFds := by decide
  generalize List.range 3 = fds at hfds
  induction fds generalizing s with
  | nil => exact h
  | cons fd fds ih =>
    refine ih ?_ fun fd' hfd' => hfds fd' (List.mem_cons_of_mem _ hfd')
    have hlt := hfds fd List.mem_cons_self
    dsimp only
    split_ifs with hnone
    · refine (h.fill (f := .dev 0) hlt hnone nofun nofun pid).congr fun g hg => ?_
      rw [referred_setFd hlt hnone, or_iff_left]
      rintro rfl
      exact Bool.false_ne_true hg.symm
    · exact h

end New

/-! ## Runs -/

theorem FileTable.Inv.step {s t : FileTable} (h : s.Inv s.Referred) {e : ℤ × FileCall}
    (hok : s.Careful e) (hstep : s.step e = some t) : t.Inv t.Referred := by
  obtain ⟨pid, call⟩ := e
  have hloop : ∀ {N : LoopNet}, N.Inv (fun i => s.Referred (.loop i)) →
      FileTable.Inv { s with loop := N } s.Referred := fun hN =>
    h.setPools rfl (fun _ => rfl) rfl rfl ⟨h.pipes, hN, h.udp⟩
  cases call with
  | openExt2 denied =>
    cases hstep
    exact h.openExt2 hok
  | openProc known =>
    cases hstep
    exact h.openProc hok
  | openDev i =>
    cases hstep
    exact h.openDev i
  | pipe mem =>
    cases hstep
    exact h.pipe hok
  | socketStream =>
    cases hstep
    exact h.socketStream
  | socketDgram =>
    cases hstep
    exact h.socketDgram
  | bind fd addr => exact h.onSocket hstep fun i _ hi => hloop (h.loop.bind hi addr)
  | listen fd => exact h.onSocket hstep fun i _ hi => hloop (h.loop.listen hi)
  | connect fd addr => exact h.onSocket hstep fun i _ hi => hloop (h.loop.connect hi addr)
  | accept fd => exact h.onSocket hstep fun i hf hi => h.accept hf hi hok
  | dup fd =>
    cases hstep
    exact h.dup
  | dupfd fd m =>
    cases hstep
    exact h.dupfd m
  | dup2 oldfd newfd =>
    cases hstep
    exact h.dup2 hok
  | close fd =>
    cases hstep
    exact h.close hok
  | wireStd =>
    cases hstep
    exact h.wireStd
  | exit =>
    cases hstep
    exact h.closeAll hok

theorem FileTable.Inv.init : FileTable.init.Inv FileTable.init.Referred := by
  have hslots : ∀ f, ¬ FileTable.init.Referred f := fun f hr => by
    obtain ⟨fd, -, hf⟩ := count_pos.mp hr
    cases hf
  have howns : ∀ {ι : Type} {live : ℕ → Prop}, (∀ k, ¬ live k) →
      Owns (fun _ : ι => (none : Option ℕ)) live := fun hlive =>
    ⟨nofun, nofun, fun hk => absurd hk (hlive _)⟩
  refine ⟨nofun, fun i => ?_, fun i => iff_of_false Bool.false_ne_true (hslots _), fun i => hslots _,
    fun i => rfl, ?_, ?_, ?_⟩
  · exact (Nat.eq_zero_of_not_pos (hslots (.ext2 i))).symm
  · exact ⟨nofun, nofun, nofun, nofun, nofun, nofun, fun i hi => absurd hi (hslots _)⟩
  · refine ⟨fun i => iff_of_false Bool.false_ne_true (hslots _), nofun, nofun, nofun, ?_, ?_, ?_,
      ⟨nofun, nofun⟩, nofun⟩
    · exact howns fun _ => Bool.false_ne_true
    · exact howns fun _ => Bool.false_ne_true
    · have hplaces : FileTable.init.loop.connAt = fun _ => none := by
        funext p
        cases p with
        | sock k => rfl
        | pending l j => rfl
      rw [hplaces]
      exact howns fun _ => Bool.false_ne_true
  · exact ⟨fun i => iff_of_false Bool.false_ne_true (hslots _), nofun,
      howns fun _ => Bool.false_ne_true⟩

def localAddr : SockAddr := ⟨afInet, 80, true⟩

/-- Process 1 opens a file twice over, connects a socket with itself, and makes a pipe; process 2 shares
the file; process 1 exits. -/
def carefulCalls : List (ℤ × FileCall) :=
  [(-1, .wireStd), (1, .openExt2 false), (1, .dup 3), (1, .dup2 3 3), (2, .dupfd 3 10), (1, .close 3),
    (1, .socketStream), (1, .bind 3 localAddr), (1, .listen 3), (1, .socketStream),
    (1, .connect 5 localAddr), (1, .accept 3), (1, .pipe true), (1, .close 7), (2, .socketDgram),
    (1, .exit)]

/-- A way to lose the expected lifetimes: a slot that refers to what is not allocated, or a file object
that is allocated without a slot. -/
def FileTable.Astray (s : FileTable) : Prop :=
  (∃ fd < maxFds, ¬ ∀ f ∈ s.fdTable fd, s.Allocated f) ∨
    ∃ i < maxPipeFiles, s.Allocated (.pipe i) ∧ ¬ s.Referred (.pipe i)

instance (s : FileTable) : (f : FileId) → Decidable (s.Allocated f)
  | .dev _ => isTrue trivial
  | .ext2 i => inferInstanceAs (Decidable (s.ext2Used i = true))
  | .pipe i => inferInstanceAs (Decidable ((s.pipes.files i).used = true))
  | .proc i => inferInstanceAs (Decidable (s.procBusy i = true))
  | .loop i => inferInstanceAs (Decidable ((s.loop.files i).ops = true))
  | .udp i => inferInstanceAs (Decidable ((s.udpFiles i).ops = true))

instance (s : FileTable) (f : FileId) : Decidable (s.Referred f) :=
  inferInstanceAs (Decidable (0 < s.slots f))

instance (s : FileTable) : Decidable s.Astray := inferInstanceAs (Decidable (_ ∨ _))

theorem FileTable.Astray.not_expected {s : FileTable} (h : s.Astray) : ¬ s.Expected := by
  rintro ⟨hlive, hreleased, -, -⟩
  rcases h with ⟨fd, -, hn⟩ | ⟨i, -, ha, hn⟩
  · exact hn fun f hf => hlive fd f hf
  · exact hn ((hreleased (.pipe i) nofun).mp ha)

theorem exists_not_expected {calls : List (ℤ × FileCall)}
    (h : (execIf FileTable.step (fun _ _ => True) .init calls).any
      (fun s => decide s.Astray) = true) :
    ∃ s, Run FileTable.step (fun _ _ => True) .init calls s ∧ ¬ s.Expected := by
  obtain ⟨s, hrun, hs⟩ := exists_run h
  exact ⟨s, hrun, hs.not_expected⟩

end BananaOS.Fs
