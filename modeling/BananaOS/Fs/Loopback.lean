import BananaOS.Lib.Ownership
import BananaOS.Lib.RingQueue
import BananaOS.Lib.SlotTable

/-!
# Loopback sockets

The four pools of `loopback.c`: file objects, sockets, listeners and connection endpoints.  A file
object holds a socket; a socket holds nothing, a listener or an endpoint; the queue of a listener
holds the endpoints that wait to be accepted.  Each of these three relations is an ownership, and that
is the invariant: `LoopNet.Inv`.
-/

namespace BananaOS.Fs

open Function SlotTable RingQueue Ownership

def loopMaxSocks : ℕ := 32

def loopMaxFiles : ℕ := 32

def loopMaxListen : ℕ := 16

def loopMaxConns : ℕ := 64

def loopBacklog : ℕ := 8

theorem loopBacklog_pos : 0 < loopBacklog := by decide

/-- A file object of a socket: whether `ops` is set, which is what marks it as allocated, and
`private_data`. -/
structure SockFile where
  ops : Bool
  sock : Option ℕ

inductive SockKind where
  | fresh
  | listening
  | connected
  deriving DecidableEq

/-- `loop_sock_t`. -/
structure LoopSock where
  used : Bool
  kind : SockKind
  lst : Option ℕ
  conn : Option ℕ

/-- `loop_listen_t`. -/
structure LoopListen where
  used : Bool
  listening : Bool
  port : ℕ
  pending : Ring (Option ℕ) loopBacklog

/-- `loop_conn_t`, without its buffer. -/
structure LoopConn where
  used : Bool
  closed : Bool
  localPort : ℕ
  peer : Option ℕ

structure LoopNet where
  files : ℕ → SockFile
  socks : ℕ → LoopSock
  listens : ℕ → LoopListen
  conns : ℕ → LoopConn

structure SockAddr where
  family : ℕ
  port : ℕ
  isLoopback : Bool

def afInet : ℕ := 2

namespace LoopNet

def setFile (N : LoopNet) (i : ℕ) (f : SockFile) : LoopNet :=
  { N with files := update N.files i f }

def setSock (N : LoopNet) (k : ℕ) (s : LoopSock) : LoopNet :=
  { N with socks := update N.socks k s }

def setListen (N : LoopNet) (l : ℕ) (x : LoopListen) : LoopNet :=
  { N with listens := update N.listens l x }

def setConn (N : LoopNet) (c : ℕ) (x : LoopConn) : LoopNet :=
  { N with conns := update N.conns c x }

end LoopNet

variable {x : LoopListen} {j l c k : ℕ} {conns : ℕ → LoopConn} {s : LoopSock}
  {listens : ℕ → LoopListen}

/-! ## Pools -/

def loopSockAlloc (N : LoopNet) : Option ℕ × LoopNet :=
  match firstFree (fun k => (N.socks k).used) 0 loopMaxSocks with
  | none => (none, N)
  | some k => (some k, N.setSock k ⟨true, .fresh, none, none⟩)

def loopListenAlloc (N : LoopNet) : Option ℕ × LoopNet :=
  match firstFree (fun l => (N.listens l).used) 0 loopMaxListen with
  | none => (none, N)
  | some l => (some l, N.setListen l ⟨true, false, 0, .empty (fun _ => none) loopBacklog_pos⟩)

def loopConnAlloc (N : LoopNet) : Option ℕ × LoopNet :=
  match firstFree (fun c => (N.conns c).used) 0 loopMaxConns with
  | none => (none, N)
  | some c => (some c, N.setConn c ⟨true, false, 0, none⟩)

def loopFileAlloc (N : LoopNet) : Option ℕ × LoopNet :=
  match firstFree (fun i => (N.files i).ops) 0 loopMaxFiles with
  | none => (none, N)
  | some i => (some i, N.setFile i ⟨true, none⟩)

/-! ## Closing -/

def tellPeer (N : LoopNet) (c : ℕ) : LoopNet :=
  match (N.conns c).peer with
  | none => N
  | some d => N.setConn d { N.conns d with peer := none, closed := true }

def closeConn (N : LoopNet) (c : ℕ) : LoopNet :=
  let N₁ := tellPeer N c
  N₁.setConn c { N₁.conns c with used := false }

def dropPending (l : ℕ) (N : LoopNet) (j : ℕ) : LoopNet :=
  match (N.listens l).pending.slots j with
  | none => N
  | some c =>
    let N₁ := closeConn N c
    let x := N₁.listens l
    N₁.setListen l
      { x with pending := { x.pending with slots := update x.pending.slots j none } }

def closeSock (N : LoopNet) (k : ℕ) : LoopNet :=
  match (N.socks k).kind, (N.socks k).conn, (N.socks k).lst with
  | .connected, some c, _ => (closeConn N c).setSock k { N.socks k with conn := none }
  | .listening, _, some l =>
    let N₁ := (List.range loopBacklog).foldl (dropPending l) N
    (N₁.setListen l { N₁.listens l with used := false }).setSock k { N.socks k with lst := none }
  | _, _, _ => N

def loopClose (N : LoopNet) (i : ℕ) : LoopNet :=
  let N₁ :=
    match (N.files i).sock with
    | none => N
    | some k =>
      let N₂ := closeSock N k
      N₂.setSock k { N₂.socks k with used := false }
  N₁.setFile i ⟨false, none⟩

/-! ## The system calls, up to the descriptors -/

/-- The first half of `loop_socket`: a file object with a socket. -/
def loopSocketFile (N : LoopNet) : Option ℕ × LoopNet :=
  match loopSockAlloc N with
  | (none, N₁) => (none, N₁)
  | (some k, N₁) =>
    match loopFileAlloc N₁ with
    | (none, N₂) => (none, N₂.setSock k { N₂.socks k with used := false })
    | (some i, N₂) => (some i, N₂.setFile i { N₂.files i with sock := some k })

def loopUndo (N : LoopNet) (i : ℕ) : LoopNet :=
  let N₁ :=
    match (N.files i).sock with
    | none => N
    | some k => N.setSock k { N.socks k with used := false }
  N₁.setFile i { N.files i with ops := false }

/-- `loop_bind`, for file object `i`. -/
def loopBind (N : LoopNet) (i : ℕ) (addr : SockAddr) : ℤ × LoopNet :=
  match (N.files i).sock with
  | none => (-9, N)
  | some k =>
    if (N.socks k).kind ≠ .fresh then (-22, N)
    else if addr.family ≠ afInet then (-97, N)
    else if addr.isLoopback = false then (-99, N)
    else if addr.port = 0 then (-22, N)
    else if ∃ l < loopMaxListen, (N.listens l).used = true ∧ (N.listens l).port = addr.port then
      (-98, N)
    else
      match loopListenAlloc N with
      | (none, N₁) => (-98, N₁)
      | (some l, N₁) =>
        (0, (N₁.setListen l { N₁.listens l with port := addr.port }).setSock k
          { N.socks k with kind := .listening, lst := some l })

def loopListen (N : LoopNet) (i : ℕ) : ℤ × LoopNet :=
  match (N.files i).sock with
  | none => (-22, N)
  | some k =>
    match (N.socks k).kind, (N.socks k).lst with
    | .listening, some l => (0, N.setListen l { N.listens l with listening := true })
    | _, _ => (-22, N)

/-- The listener that `loop_connect` finds. -/
def findListener (N : LoopNet) (port : ℕ) : Option ℕ :=
  (List.range loopMaxListen).find? fun l =>
    (N.listens l).used && (N.listens l).listening && ((N.listens l).port == port)

def loopConnect (N : LoopNet) (i : ℕ) (addr : SockAddr) : ℤ × LoopNet :=
  match (N.files i).sock with
  | none => (-9, N)
  | some k =>
    if (N.socks k).kind ≠ .fresh then (-22, N)
    else if addr.family ≠ afInet then (-97, N)
    else if addr.isLoopback = false then (-101, N)
    else if addr.port = 0 then (-22, N)
    else
      match findListener N addr.port with
      | none => (-111, N)
      | some l =>
        if loopBacklog ≤ (N.listens l).pending.count then (-111, N)
        else
          let client := loopConnAlloc N
          let server := loopConnAlloc client.2
          match client.1, server.1 with
          | some c, some d =>
            let N₁ := (server.2.setConn c ⟨true, false, 0, some d⟩).setConn d
              ⟨true, false, addr.port, some c⟩
            (0, (N₁.setListen l { N₁.listens l with
                pending := (N₁.listens l).pending.enqueue (some d) }).setSock k
              { N.socks k with kind := .connected, conn := some c })
          | some c, none =>
            (-12, server.2.setConn c { server.2.conns c with used := false })
          | none, some d =>
            (-12, server.2.setConn d { server.2.conns d with used := false })
          | none, none => (-12, server.2)

def popPending (N : LoopNet) (l : ℕ) : Option ℕ × LoopNet :=
  let x := N.listens l
  let r := x.pending.dequeue.2
  (x.pending.slots x.pending.head,
    N.setListen l
      { x with pending := { r with slots := update r.slots x.pending.head none } })

/-- The listener of `loop_accept`, if there is something to accept. -/
def acceptFrom (N : LoopNet) (i : ℕ) : Except ℤ ℕ :=
  match (N.files i).sock with
  | none => .error (-22)
  | some k =>
    match (N.socks k).kind, (N.socks k).lst with
    | .listening, some l =>
      if (N.listens l).listening = false then .error (-22)
      else if (N.listens l).pending.count = 0 then .error (-11)
      else .ok l
    | _, _ => .error (-22)

/-- `loop_accept` from listener `l`, up to the descriptor: a file object with a socket for the first
endpoint of the queue. -/
def loopAcceptFile (N : LoopNet) (l : ℕ) : Option ℕ × LoopNet :=
  let server := popPending N l
  let ns := loopSockAlloc server.2
  let nf := loopFileAlloc ns.2
  match ns.1, nf.1 with
  | some k, some i =>
    (some i, (nf.2.setSock k ⟨true, .connected, none, server.1⟩).setFile i ⟨true, some k⟩)
  | some k, none => (none, nf.2.setSock k { nf.2.socks k with used := false })
  | none, some i => (none, nf.2.setFile i { nf.2.files i with ops := false })
  | none, none => (none, nf.2)

/-! ## Who holds what -/

def SockFile.held (f : SockFile) : Option ℕ := if f.ops = true then f.sock else none

def LoopSock.heldListen (s : LoopSock) : Option ℕ :=
  if s.used = true ∧ s.kind = .listening then s.lst else none

def LoopSock.heldConn (s : LoopSock) : Option ℕ :=
  if s.used = true ∧ s.kind = .connected then s.conn else none

def LoopListen.heldConn (x : LoopListen) (j : ℕ) : Option ℕ :=
  if x.used = true ∧ j < loopBacklog then x.pending.slots j else none

def LoopNet.fileSock (N : LoopNet) : ℕ → Option ℕ := SockFile.held ∘ N.files

def LoopNet.sockListen (N : LoopNet) : ℕ → Option ℕ := LoopSock.heldListen ∘ N.socks

/-- A place for an endpoint: a socket, or a slot of the queue of a listener. -/
inductive ConnPlace where
  | sock (k : ℕ)
  | pending (l j : ℕ)
  deriving DecidableEq

def LoopNet.connAt (N : LoopNet) : ConnPlace → Option ℕ
  | .sock k => (N.socks k).heldConn
  | .pending l j => (N.listens l).heldConn j

/-- The two endpoints of a connection refer to each other; an endpoint whose peer is gone is marked
as closed, and no other. -/
structure Peers (conns : ℕ → LoopConn) : Prop where
  sym : ∀ c d, (conns c).used = true → (conns c).peer = some d →
    d ≠ c ∧ (conns d).used = true ∧ (conns d).peer = some c
  closed : ∀ c, (conns c).used = true → ((conns c).closed = true ↔ (conns c).peer = none)

def LoopListen.Queued (x : LoopListen) : Prop :=
  ∀ j < loopBacklog, x.pending.slots ((x.pending.head + j) % loopBacklog) = none ↔ x.pending.count ≤ j

/-- **The pools are in order**, where `held` are the file objects that have a descriptor. -/
structure LoopNet.Inv (N : LoopNet) (held : ℕ → Prop) : Prop where
  ops_iff : ∀ i, (N.files i).ops = true ↔ held i
  file_sock : ∀ i, (N.files i).ops = true → (N.files i).sock ≠ none
  sock_lst : ∀ k, (N.socks k).used = true → (N.socks k).kind = .listening → (N.socks k).lst ≠ none
  sock_conn : ∀ k, (N.socks k).used = true → (N.socks k).kind = .connected → (N.socks k).conn ≠ none
  socks : Owns N.fileSock fun k => (N.socks k).used = true
  listens : Owns N.sockListen fun l => (N.listens l).used = true
  conns : Owns N.connAt fun c => (N.conns c).used = true
  peers : Peers N.conns
  queued : ∀ l, (N.listens l).used = true → (N.listens l).Queued

/-- The endpoints in use are some of those before, and have no other peers than before. -/
def Shrinks (N N' : LoopNet) : Prop :=
  ∀ c, (N'.conns c).used = true →
    (N.conns c).used = true ∧ ∀ d, (N'.conns c).peer = some d → (N.conns c).peer = some d

/-- **The three ownerships.**  `full` says whether nothing has been lost. -/
structure LoopNet.Tied (full : Prop) (N : LoopNet) : Prop where
  socks : Owned full N.fileSock fun k => (N.socks k).used = true
  listens : Owned full N.sockListen fun l => (N.listens l).used = true
  conns : Owned full N.connAt fun c => (N.conns c).used = true
  peers : Peers N.conns

theorem LoopNet.Inv.tied {N : LoopNet} {held : ℕ → Prop} (h : N.Inv held) : N.Tied True :=
  ⟨h.socks.owned, h.listens.owned, h.conns.owned, h.peers⟩

/-! ### What a single entry holds -/

theorem SockFile.held_of_closed {f : SockFile} (h : f.ops = false) : f.held = none :=
  if_neg fun hn => Bool.false_ne_true (h.symm.trans hn)

theorem SockFile.held_congr {f f' : SockFile} (h : f' = f ∨ (f'.ops = false ∧ f.ops = false)) :
    f'.held = f.held :=
  h.elim (congrArg SockFile.held) fun hn => (held_of_closed hn.1).trans (held_of_closed hn.2).symm

section Sock

variable {s s' : LoopSock}

theorem LoopSock.heldListen_of_unused (h : s.used = false) : s.heldListen = none :=
  if_neg fun hn => Bool.false_ne_true (h.symm.trans hn.1)

theorem LoopSock.heldConn_of_unused (h : s.used = false) : s.heldConn = none :=
  if_neg fun hn => Bool.false_ne_true (h.symm.trans hn.1)

theorem LoopSock.heldConn_congr (h : s' = s ∨ (s'.used = false ∧ s.used = false)) :
    s'.heldConn = s.heldConn :=
  h.elim (congrArg LoopSock.heldConn) fun hn =>
    (heldConn_of_unused hn.1).trans (heldConn_of_unused hn.2).symm

theorem LoopSock.heldListen_of_kind (h : s.kind ≠ .listening) : s.heldListen = none :=
  if_neg fun hn => h hn.2

theorem LoopSock.heldConn_of_kind (h : s.kind ≠ .connected) : s.heldConn = none :=
  if_neg fun hn => h hn.2

theorem LoopSock.heldListen_eq (hu : s.used = true) (hk : s.kind = .listening) :
    s.heldListen = s.lst :=
  if_pos ⟨hu, hk⟩

theorem LoopSock.heldConn_eq (hu : s.used = true) (hk : s.kind = .connected) :
    s.heldConn = s.conn :=
  if_pos ⟨hu, hk⟩

end Sock

theorem heldConn_of_unused (hx : x.used = false) (j : ℕ) : x.heldConn j = none :=
  if_neg fun hn => Bool.false_ne_true (hx.symm.trans hn.1)

theorem heldConn_empty (used listening : Bool) (port j : ℕ) :
    LoopListen.heldConn ⟨used, listening, port, .empty (fun _ => none) loopBacklog_pos⟩ j = none :=
  ite_self _

theorem heldConn_update_none (x : LoopListen) {y : LoopListen} (hu : y.used = x.used)
    (hs : y.pending.slots = update x.pending.slots j none) (j' : ℕ) :
    y.heldConn j' = if j' = j then none else x.heldConn j' := by
  unfold LoopListen.heldConn
  rw [hu, hs]
  by_cases hj : j' = j
  · rw [hj, update_self, if_pos rfl, ite_self]
  · rw [update_of_ne hj, if_neg hj]

/-! ### Changing one entry -/

section Set

variable (N : LoopNet)

theorem fileSock_setFile (i : ℕ) (f : SockFile) :
    (N.setFile i f).fileSock = update N.fileSock i f.held :=
  Function.comp_update ..

theorem sockListen_setSock (k : ℕ) (s : LoopSock) :
    (N.setSock k s).sockListen = update N.sockListen k s.heldListen :=
  Function.comp_update ..

theorem connAt_setSock (k : ℕ) (s : LoopSock) :
    (N.setSock k s).connAt = update N.connAt (.sock k) s.heldConn := by
  funext p
  by_cases hp : p = .sock k
  · subst hp
    rw [update_self]
    exact congrArg LoopSock.heldConn (update_self ..)
  · rw [update_of_ne hp]
    cases p with
    | sock j =>
      exact congrArg LoopSock.heldConn (update_of_ne (fun hj => hp (by rw [hj])) ..)
    | pending l j => rfl

theorem connAt_setListen {c : Option ℕ}
    (hslots : ∀ j', x.heldConn j' = if j' = j then c else (N.listens l).heldConn j') :
    (N.setListen l x).connAt = update N.connAt (.pending l j) c := by
  funext p
  cases p with
  | sock k =>
    rw [update_of_ne (by simp)]
    rfl
  | pending l' j' =>
    by_cases hl : l' = l
    · subst hl
      have hself : (N.setListen l' x).connAt (.pending l' j') = x.heldConn j' :=
        congrArg (LoopListen.heldConn · j') (update_self ..)
      rw [hself, hslots]
      by_cases hjj : j' = j
      · rw [if_pos hjj, hjj, update_self]
      · rw [if_neg hjj, update_of_ne (by simpa using hjj)]
        rfl
    · rw [update_of_ne fun h => hl (ConnPlace.pending.inj h).1]
      exact congrArg (LoopListen.heldConn · j') (update_of_ne hl ..)

theorem connAt_setListen_of_eq (hslots : ∀ j, x.heldConn j = (N.listens l).heldConn j) :
    (N.setListen l x).connAt = N.connAt := by
  have hself : N.connAt (.pending l 0) = (N.listens l).heldConn 0 := rfl
  refine (connAt_setListen N (j := 0) (c := (N.listens l).heldConn 0) fun j' => ?_).trans ?_
  · rw [hslots]
    split_ifs with hj
    · rw [hj]
    · rfl
  · rw [← hself, update_eq_self]

theorem connAt_popPending (l : ℕ) : (popPending N l).2.connAt =
    update N.connAt (.pending l (N.listens l).pending.head) none :=
  connAt_setListen N (heldConn_update_none _ rfl (by dsimp only; rw [Ring.slots_dequeue]))

end Set

/-! ### What is not in use -/

theorem Peers.congr {conns' : ℕ → LoopConn} (h : Peers conns)
    (hsame : ∀ c, conns' c = conns c ∨ ((conns' c).used = false ∧ (conns c).used = false)) :
    Peers conns' := by
  have hold : ∀ {c}, (conns' c).used = true → conns' c = conns c := fun {c} hu =>
    (hsame c).resolve_right fun hn => Bool.false_ne_true (hn.1.symm.trans hu)
  have hnew : ∀ {c}, (conns c).used = true → conns' c = conns c := fun {c} hu =>
    (hsame c).resolve_right fun hn => Bool.false_ne_true (hn.2.symm.trans hu)
  refine ⟨fun c d hu hp => ?_, fun c hu => ?_⟩
  · have heq := hold hu
    rw [heq] at hu hp
    obtain ⟨hne, hdu, hdp⟩ := h.sym c d hu hp
    rw [hnew hdu]
    exact ⟨hne, hdu, hdp⟩
  · have heq := hold hu
    rw [heq] at hu ⊢
    exact h.closed c hu

section Same

variable {full : Prop} {N N' : LoopNet} {held held' : ℕ → Prop}

theorem LoopNet.Tied.congr (h : N.Tied full)
    (hfiles : ∀ i, N'.files i = N.files i ∨ ((N'.files i).ops = false ∧ (N.files i).ops = false))
    (hsocks : ∀ k, N'.socks k = N.socks k ∨ ((N'.socks k).used = false ∧ (N.socks k).used = false))
    (hconns : ∀ c, N'.conns c = N.conns c ∨ ((N'.conns c).used = false ∧ (N.conns c).used = false))
    (hlistens : N'.listens = N.listens) : N'.Tied full := by
  have hfs : N'.fileSock = N.fileSock := funext fun i => SockFile.held_congr (hfiles i)
  have hsl : N'.sockListen = N.sockListen := funext fun k =>
    (hsocks k).elim (congrArg LoopSock.heldListen) fun hn =>
      (LoopSock.heldListen_of_unused hn.1).trans (LoopSock.heldListen_of_unused hn.2).symm
  have hca : N'.connAt = N.connAt := by
    funext p
    cases p with
    | sock k => exact LoopSock.heldConn_congr (hsocks k)
    | pending l j => exact congrArg (fun f => LoopListen.heldConn (f l) j) hlistens
  refine ⟨h.socks.congr hfs fun k => ?_, h.listens.congr hsl fun l => by rw [hlistens],
    h.conns.congr hca fun c => ?_, h.peers.congr hconns⟩
  · rcases hsocks k with he | hn
    · rw [he]
    · rw [hn.1, hn.2]
  · rcases hconns c with he | hn
    · rw [he]
    · rw [hn.1, hn.2]

theorem LoopNet.Inv.of_tied (h : N.Inv held) (ht : N'.Tied True)
    (hops : ∀ i, (N'.files i).ops = true ↔ held' i)
    (hfile : ∀ i, (N'.files i).ops = true → N'.files i = N.files i)
    (hsock : ∀ k, (N'.socks k).used = true → N'.socks k = N.socks k)
    (hlisten : ∀ l, (N'.listens l).used = true → N'.listens l = N.listens l) : N'.Inv held' := by
  refine ⟨hops, fun i hi => ?_, fun k hk => ?_, fun k hk => ?_, ht.socks.owns, ht.listens.owns,
    ht.conns.owns, ht.peers, fun l hl => ?_⟩
  · have heq := hfile i hi
    rw [heq] at hi ⊢
    exact h.file_sock i hi
  · have heq := hsock k hk
    rw [heq] at hk ⊢
    exact h.sock_lst k hk
  · have heq := hsock k hk
    rw [heq] at hk ⊢
    exact h.sock_conn k hk
  · have heq := hlisten l hl
    rw [heq] at hl ⊢
    exact h.queued l hl

theorem LoopNet.Inv.congr (h : N.Inv held)
    (hfiles : ∀ i, N'.files i = N.files i ∨ ((N'.files i).ops = false ∧ (N.files i).ops = false))
    (hsocks : ∀ k, N'.socks k = N.socks k ∨ ((N'.socks k).used = false ∧ (N.socks k).used = false))
    (hconns : ∀ c, N'.conns c = N.conns c ∨ ((N'.conns c).used = false ∧ (N.conns c).used = false))
    (hlistens : N'.listens = N.listens) : N'.Inv held := by
  refine h.of_tied (h.tied.congr hfiles hsocks hconns hlistens) (fun i => ?_) (fun i hi => ?_)
    (fun k hk => ?_) fun l _ => congrFun hlistens l
  · rw [← h.ops_iff i]
    rcases hfiles i with he | hn
    · rw [he]
    · rw [hn.1, hn.2]
  · exact (hfiles i).resolve_right fun hn => Bool.false_ne_true (hn.1.symm.trans hi)
  · exact (hsocks k).resolve_right fun hn => Bool.false_ne_true (hn.1.symm.trans hk)

end Same

/-! ### Closing -/

section Close

variable {full : Prop} {N N' N'' : LoopNet} {held : ℕ → Prop}

theorem Shrinks.of_eq (h : N'.conns = N.conns) : Shrinks N N' := fun c hu => by
  rw [h] at hu ⊢
  exact ⟨hu, fun _ hd => hd⟩

theorem Shrinks.trans (h : Shrinks N N') (h' : Shrinks N' N'') : Shrinks N N'' := fun c hu =>
  ⟨(h c (h' c hu).1).1, fun d hd => (h c (h' c hu).1).2 d ((h' c hu).2 d hd)⟩

theorem closeConn_conns (N : LoopNet) (c : ℕ) : (closeConn N c).files = N.files ∧
    (closeConn N c).socks = N.socks ∧ (closeConn N c).listens = N.listens := by
  unfold closeConn tellPeer
  dsimp only
  rcases (N.conns c).peer with _ | d
  · exact ⟨rfl, rfl, rfl⟩
  · exact ⟨rfl, rfl, rfl⟩

theorem connAt_closeConn (N : LoopNet) (c : ℕ) : (closeConn N c).connAt = N.connAt := by
  obtain ⟨-, hs, hl⟩ := closeConn_conns N c
  funext p
  cases p with
  | sock k => exact congrArg (fun f => LoopSock.heldConn (f k)) hs
  | pending l j => exact congrArg (fun f => LoopListen.heldConn (f l) j) hl

theorem conns_closeConn (h : Peers N.conns) (hc : (N.conns c).used = true) (c' : ℕ) :
    (closeConn N c).conns c' =
      if c' = c then { N.conns c with used := false }
      else if (N.conns c).peer = some c' then { N.conns c' with peer := none, closed := true }
      else N.conns c' := by
  unfold closeConn tellPeer LoopNet.setConn
  dsimp only
  rcases hp : (N.conns c).peer with _ | d
  · dsimp only
    by_cases hcc : c' = c
    · rw [hcc, update_self, if_pos rfl, hp]
    · rw [update_of_ne hcc, if_neg hcc, if_neg (by simp)]
  · have hne := (h.sym c d hc hp).1
    dsimp only
    by_cases hcc : c' = c
    · rw [hcc, update_self, update_of_ne hne.symm, if_pos rfl, hp]
    · rw [update_of_ne hcc, if_neg hcc]
      by_cases hdc : c' = d
      · rw [hdc, update_self, if_pos rfl]
      · rw [update_of_ne hdc, if_neg fun hs => hdc (Option.some.inj hs).symm]

theorem used_closeConn (h : Peers N.conns) (hc : (N.conns c).used = true) (c' : ℕ) :
    ((closeConn N c).conns c').used = true ↔ (N.conns c').used = true ∧ c' ≠ c := by
  rw [conns_closeConn h hc]
  split_ifs with hcc hp
  · exact iff_of_false nofun fun hn => hn.2 hcc
  · exact ⟨fun hu => ⟨hu, hcc⟩, fun hu => hu.1⟩
  · exact ⟨fun hu => ⟨hu, hcc⟩, fun hu => hu.1⟩

theorem shrinks_closeConn (h : Peers N.conns) (hc : (N.conns c).used = true) :
    Shrinks N (closeConn N c) := fun c' hu => by
  refine ⟨((used_closeConn h hc c').mp hu).1, fun d hd => ?_⟩
  rw [conns_closeConn h hc] at hd
  split_ifs at hd with hcc hp
  · rw [hcc]
    exact hd
  · exact hd

theorem Peers.closeConn (h : Peers N.conns) (hc : (N.conns c).used = true) :
    Peers (closeConn N c).conns := by
  have hcases : ∀ c', ((Fs.closeConn N c).conns c').used = true → c' ≠ c ∧ (N.conns c').used = true ∧
      (((N.conns c).peer = some c' ∧ ((Fs.closeConn N c).conns c').peer = none ∧
          ((Fs.closeConn N c).conns c').closed = true) ∨
        ((N.conns c).peer ≠ some c' ∧ (Fs.closeConn N c).conns c' = N.conns c')) := by
    intro c' hu
    obtain ⟨hu, hne⟩ := (used_closeConn h hc c').mp hu
    refine ⟨hne, hu, ?_⟩
    rw [conns_closeConn h hc, if_neg hne]
    split_ifs with hp
    · exact .inl ⟨hp, rfl, rfl⟩
    · exact .inr ⟨hp, rfl⟩
  refine ⟨fun a d ha hd => ?_, fun a ha => ?_⟩
  · obtain ⟨hne, hu, ⟨-, hnone, -⟩ | ⟨hp, heq⟩⟩ := hcases a ha
    · rw [hnone] at hd
      cases hd
    · rw [heq] at hd
      obtain ⟨hda, hdu, hdp⟩ := h.sym a d hu hd
      have hdc : d ≠ c := by
        rintro rfl
        exact hp hdp
      have hdu' := (used_closeConn h hc d).mpr ⟨hdu, hdc⟩
      obtain ⟨-, -, ⟨hpd, -⟩ | ⟨-, hdeq⟩⟩ := hcases d hdu'
      · -- the peer of `c` is `d`, whose peer is `a`
        have := (h.sym c d hc hpd).2.2
        rw [hdp] at this
        exact absurd (Option.some.inj this) hne
      · exact ⟨hda, hdu', hdeq ▸ hdp⟩
  · obtain ⟨-, hu, ⟨-, hnone, hclosed⟩ | ⟨-, heq⟩⟩ := hcases a ha
    · exact iff_of_true hclosed hnone
    · rw [heq]
      exact h.closed a hu

theorem owned_closeConn (h : Owned full N.connAt fun c => (N.conns c).used = true)
    (hp : Peers N.conns) {p : ConnPlace} (hat : N.connAt p = some c) :
    Owned full (update N.connAt p none) fun c' => ((closeConn N c).conns c').used = true :=
  (h.drop hat).congr rfl fun c' => used_closeConn hp (h.isLive hat) c'

/-- The queue of listener `l` is being emptied: slots `js` are, and the rest is as it was. -/
structure Emptied (full : Prop) (N N' : LoopNet) (l : ℕ) (js : List ℕ) : Prop where
  files : N'.files = N.files
  socks : N'.socks = N.socks
  other : ∀ l', l' ≠ l → N'.listens l' = N.listens l'
  used : (N'.listens l).used = (N.listens l).used
  slots : ∀ j, (N'.listens l).pending.slots j =
    if j ∈ js then none else (N.listens l).pending.slots j
  conns : Owned full N'.connAt fun c => (N'.conns c).used = true
  peers : Peers N'.conns
  shrinks : Shrinks N N'

theorem Emptied.dropPending {N₀ : LoopNet} {js : List ℕ} (h : Emptied full N₀ N l js)
    (hl : (N₀.listens l).used = true) (hj : j < loopBacklog) :
    Emptied full N₀ (dropPending l N j) l (j :: js) := by
  have hmem : ∀ j', (if j' ∈ j :: js then none else (N₀.listens l).pending.slots j') =
      if j' = j then none else (N.listens l).pending.slots j' := by
    intro j'
    rw [h.slots]
    by_cases hjj : j' = j
    · rw [if_pos hjj, if_pos (hjj ▸ List.mem_cons_self)]
    · rw [if_neg hjj]
      exact if_congr (by rw [List.mem_cons, or_iff_right hjj]) rfl rfl
  unfold Fs.dropPending
  rcases hc : (N.listens l).pending.slots j with _ | c
  · refine ⟨h.files, h.socks, h.other, h.used, fun j' => ?_, h.conns, h.peers, h.shrinks⟩
    dsimp only
    rw [hmem]
    split_ifs with hjj
    · rw [hjj, hc]
    · rfl
  · have hu : (N.listens l).used = true := h.used.trans hl
    have hat : N.connAt (.pending l j) = some c := (if_pos ⟨hu, hj⟩).trans hc
    have hcu := h.conns.isLive hat
    obtain ⟨hf, hs, hls⟩ := closeConn_conns N c
    have hat' : ((closeConn N c).setListen l { (closeConn N c).listens l with
          pending := { ((closeConn N c).listens l).pending with
            slots := update ((closeConn N c).listens l).pending.slots j none } }).connAt =
        update N.connAt (.pending l j) none := by
      rw [← connAt_closeConn N c]
      exact connAt_setListen _ (heldConn_update_none _ rfl rfl)
    dsimp only
    refine ⟨hf.trans h.files, hs.trans h.socks, fun l' hne => ?_, ?_, fun j' => ?_, ?_,
      h.peers.closeConn hcu, h.shrinks.trans (shrinks_closeConn h.peers hcu)⟩
    · exact (update_of_ne hne ..).trans ((congrFun hls l').trans (h.other l' hne))
    · unfold LoopNet.setListen
      dsimp only
      rw [update_self]
      exact (congrArg (fun f => (f l).used) hls).trans h.used
    · unfold LoopNet.setListen
      dsimp only
      rw [update_self, hmem]
      dsimp only
      rw [update_apply, hls]
    · rw [hat']
      exact owned_closeConn h.conns h.peers hat

theorem emptied_foldl {N₀ : LoopNet} (hl : (N₀.listens l).used = true) {js js' : List ℕ}
    (hjs : ∀ j ∈ js, j < loopBacklog) (h : Emptied full N₀ N l js') :
    ∃ js'', (∀ j, j ∈ js'' ↔ j ∈ js ∨ j ∈ js') ∧
      Emptied full N₀ (js.foldl (dropPending l) N) l js'' := by
  induction js generalizing N js' with
  | nil => exact ⟨js', fun j => by simp, h⟩
  | cons j js ih =>
    obtain ⟨js'', hmem, hfold⟩ := ih (fun j' hj' => hjs j' (List.mem_cons_of_mem _ hj'))
      (h.dropPending hl (hjs j List.mem_cons_self))
    refine ⟨js'', fun j' => ?_, hfold⟩
    rw [hmem, List.mem_cons, List.mem_cons]
    tauto

structure SockClosed (full : Prop) (N N' : LoopNet) (k : ℕ) : Prop where
  files : N'.files = N.files
  socks : ∀ k', k' ≠ k → N'.socks k' = N.socks k'
  listens : Owned full (update N.sockListen k none) fun l => (N'.listens l).used = true
  conns : Owned full (update N'.connAt (.sock k) none) fun c => (N'.conns c).used = true
  peers : Peers N'.conns
  kept : ∀ l, (N'.listens l).used = true → N'.listens l = N.listens l
  shrinks : Shrinks N N'

theorem LoopNet.Tied.sockClosed (h : N.Tied full) (hl : (N.socks k).heldListen = none)
    (hc : (N.socks k).heldConn = none) : SockClosed full N N k := by
  refine ⟨rfl, fun _ _ => rfl, ?_, ?_, h.peers, fun _ _ => rfl, .of_eq rfl⟩
  · rw [update_eq_self_iff.mpr (show none = N.sockListen k from hl.symm)]
    exact h.listens
  · rw [update_eq_self_iff.mpr (show none = N.connAt (.sock k) from hc.symm)]
    exact h.conns

theorem LoopNet.Tied.closeSock (h : N.Tied full) (hk : (N.socks k).used = true) :
    SockClosed full N (closeSock N k) k := by
  unfold Fs.closeSock
  cases hkind : (N.socks k).kind with
  | fresh =>
    exact h.sockClosed (LoopSock.heldListen_of_kind (by rw [hkind]; decide))
      (LoopSock.heldConn_of_kind (by rw [hkind]; decide))
  | connected =>
    have hnol : (N.socks k).heldListen = none := LoopSock.heldListen_of_kind (by rw [hkind]; decide)
    have hheld := LoopSock.heldConn_eq hk hkind
    rcases hc : (N.socks k).conn with _ | c
    · exact h.sockClosed hnol (hheld.trans hc)
    have hat : N.connAt (.sock k) = some c := hheld.trans hc
    have hcu := h.conns.isLive hat
    obtain ⟨hf, hs, hls⟩ := closeConn_conns N c
    dsimp only
    refine ⟨hf, fun k' hne => ?_, ?_, ?_, h.peers.closeConn hcu, fun l _ => congrFun hls l,
      shrinks_closeConn h.peers hcu⟩
    · exact (update_of_ne hne ..).trans (congrFun hs k')
    · rw [update_eq_self_iff.mpr (show none = N.sockListen k from hnol.symm)]
      exact h.listens.congr rfl fun l => by rw [← hls]; rfl
    · rw [connAt_setSock, update_idem, connAt_closeConn]
      exact owned_closeConn h.conns h.peers hat
  | listening =>
    have hnoc : (N.socks k).heldConn = none := LoopSock.heldConn_of_kind (by rw [hkind]; decide)
    have hheld := LoopSock.heldListen_eq hk hkind
    rcases hl : (N.socks k).lst with _ | l
    · dsimp only
      exact h.sockClosed (hheld.trans hl) hnoc
    have hown : N.sockListen k = some l := hheld.trans hl
    obtain ⟨js, hjs, hemp⟩ := emptied_foldl (h.listens.isLive hown)
      (fun j hj => List.mem_range.mp hj)
      (⟨rfl, rfl, fun _ _ => rfl, rfl, fun j => by simp, h.conns, h.peers, .of_eq rfl⟩ :
        Emptied full N N l [])
    dsimp only
    generalize (List.range loopBacklog).foldl (dropPending l) N = N₁ at hemp
    have hlisten : ∀ l', (update N₁.listens l { N₁.listens l with used := false } l').used =
        true ↔ (N.listens l').used = true ∧ l' ≠ l := by
      intro l'
      refine (update_dead_iff (P := fun x : LoopListen => x.used = true) Bool.false_ne_true
        l').trans (and_congr_left fun hll => ?_)
      rw [hemp.other l' hll]
    refine ⟨hemp.files, fun k' hne => ?_, (h.listens.drop hown).congr rfl hlisten, ?_, hemp.peers,
      fun l' hu => ?_, hemp.shrinks⟩
    · exact (update_of_ne hne ..).trans (congrFun hemp.socks k')
    · -- the slots are empty, so that the listener can go
      have hslots : ∀ j, LoopListen.heldConn { N₁.listens l with used := false } j =
          (N₁.listens l).heldConn j := by
        intro j
        unfold LoopListen.heldConn
        dsimp only
        rw [if_neg fun hn => Bool.false_ne_true hn.1]
        split_ifs with hj
        · rw [hemp.slots j, if_pos ((hjs j).mpr (.inl (List.mem_range.mpr hj.2)))]
        · rfl
      have hsock : none = N₁.connAt (.sock k) :=
        ((congrArg (fun f : ℕ → LoopSock => (f k).heldConn) hemp.socks).trans hnoc).symm
      rw [connAt_setSock, update_idem, connAt_setListen_of_eq N₁ hslots,
        update_eq_self_iff.mpr hsock]
      exact hemp.conns
    · have hne := ((hlisten l').mp hu).2
      exact (update_of_ne hne ..).trans (hemp.other l' hne)

structure FileClosed (full : Prop) (N N' : LoopNet) (i : ℕ) : Prop where
  tied : N'.Tied full
  files : N'.files = update N.files i ⟨false, none⟩
  socks : ∀ k, N.fileSock i ≠ some k → N'.socks k = N.socks k
  sock : ∀ k, N.fileSock i = some k → (N'.socks k).used = false
  kept : ∀ l, (N'.listens l).used = true → N'.listens l = N.listens l
  shrinks : Shrinks N N'

theorem LoopNet.Tied.close (h : N.Tied full) {i : ℕ} (hi : (N.files i).ops = true) :
    FileClosed full N (loopClose N i) i := by
  unfold loopClose
  rcases hk : (N.files i).sock with _ | k
  · have hnone : N.fileSock i = none := (if_pos hi).trans hk
    refine ⟨⟨h.socks.congr ?_ fun _ => .rfl, h.listens, h.conns, h.peers⟩, rfl, fun _ _ => rfl,
      fun k hn => (nomatch hnone.symm.trans hn), fun _ _ => rfl, .of_eq rfl⟩
    exact (fileSock_setFile ..).trans (update_eq_self_iff.mpr hnone.symm)
  have hown : N.fileSock i = some k := (if_pos hi).trans hk
  obtain ⟨hfiles, hsocks, hlistens, hconns, hpeers, hkept, hshr⟩ :=
    h.closeSock (h.socks.isLive hown)
  dsimp only
  generalize Fs.closeSock N k = N₂ at hfiles hsocks hlistens hconns hpeers hkept hshr
  have hoff : ∀ s : LoopSock, LoopSock.heldListen { s with used := false } = none ∧
      LoopSock.heldConn { s with used := false } = none := fun s =>
    ⟨LoopSock.heldListen_of_unused rfl, LoopSock.heldConn_of_unused rfl⟩
  refine ⟨⟨?_, hlistens.congr ?_ fun _ => .rfl, hconns.congr ?_ fun _ => .rfl, hpeers⟩,
    congrArg (update · i _) hfiles, fun k' hne => ?_, fun k' hk' => ?_, hkept, hshr⟩
  · rw [fileSock_setFile]
    refine (h.socks.drop hown).congr ?_ fun k' => ?_
    · exact congrArg (fun fs => update (SockFile.held ∘ fs) i none) hfiles
    · refine (update_dead_iff (P := fun s : LoopSock => s.used = true) Bool.false_ne_true
        k').trans (and_congr_left fun hkk => ?_)
      rw [hsocks k' hkk]
  · refine (sockListen_setSock ..).trans (funext fun k' => ?_)
    by_cases hkk : k' = k
    · rw [hkk, update_self, update_self]
      exact (hoff _).1
    · rw [update_of_ne hkk, update_of_ne hkk]
      exact congrArg LoopSock.heldListen (hsocks k' hkk)
  · exact (connAt_setSock ..).trans (congrArg (update N₂.connAt (.sock k)) (hoff _).2)
  · have hkk : k' ≠ k := fun he => hne (he ▸ hown)
    exact (update_of_ne hkk ..).trans (hsocks k' hkk)
  · obtain rfl : k = k' := Option.some.inj (hown.symm.trans hk')
    exact congrArg LoopSock.used (update_self k _ N₂.socks)

theorem LoopNet.Inv.close (h : N.Inv held) {i : ℕ} (hi : held i) :
    (loopClose N i).Inv fun j => held j ∧ j ≠ i := by
  have hclosed := h.tied.close ((h.ops_iff i).mpr hi)
  generalize loopClose N i = N' at hclosed
  have hops : ∀ j, (N'.files j).ops = true ↔ (N.files j).ops = true ∧ j ≠ i := fun j => by
    rw [hclosed.files]
    exact update_dead_iff (P := fun f : SockFile => f.ops = true) Bool.false_ne_true j
  refine h.of_tied hclosed.tied (fun j => (hops j).trans (and_congr_left fun _ => h.ops_iff j))
    (fun j hj => ?_) (fun k hk => hclosed.socks k fun hown => ?_) hclosed.kept
  · rw [hclosed.files]
    exact update_of_ne ((hops j).mp hj).2 ..
  · exact Bool.false_ne_true ((hclosed.sock k hown).symm.trans hk)

end Close

/-! ### Opening -/

section Open

variable {full : Prop} {N : LoopNet} {held : ℕ → Prop} {i k : ℕ}

theorem loopSockAlloc_cases (N : LoopNet) : (loopSockAlloc N = (none, N)) ∨
    ∃ k, (N.socks k).used = false ∧ loopSockAlloc N =
      (some k, N.setSock k ⟨true, .fresh, none, none⟩) := by
  unfold loopSockAlloc
  rcases hf : firstFree (fun k => (N.socks k).used) 0 loopMaxSocks with _ | k
  · exact .inl rfl
  · exact .inr ⟨k, (firstFree_eq_some hf).2.2, rfl⟩

theorem loopFileAlloc_cases (N : LoopNet) : (loopFileAlloc N = (none, N)) ∨
    ∃ i, (N.files i).ops = false ∧ loopFileAlloc N = (some i, N.setFile i ⟨true, none⟩) := by
  unfold loopFileAlloc
  rcases hf : firstFree (fun i => (N.files i).ops) 0 loopMaxFiles with _ | i
  · exact .inl rfl
  · exact .inr ⟨i, (firstFree_eq_some hf).2.2, rfl⟩

theorem loopConnAlloc_cases (N : LoopNet) : (loopConnAlloc N = (none, N)) ∨
    ∃ c, (N.conns c).used = false ∧ loopConnAlloc N = (some c, N.setConn c ⟨true, false, 0, none⟩) := by
  unfold loopConnAlloc
  rcases hf : firstFree (fun c => (N.conns c).used) 0 loopMaxConns with _ | c
  · exact .inl rfl
  · exact .inr ⟨c, (firstFree_eq_some hf).2.2, rfl⟩

theorem LoopNet.Inv.sock_update (h : N.Inv held)
    (hlst : s.kind = .listening → s.lst ≠ none) (hconn : s.kind = .connected → s.conn ≠ none)
    (k' : ℕ) (hu : (update N.socks k s k').used = true) :
    ((update N.socks k s k').kind = .listening →
        (update N.socks k s k').lst ≠ none) ∧
      ((update N.socks k s k').kind = .connected →
        (update N.socks k s k').conn ≠ none) :=
  (Function.forall_update_iff N.socks fun _ t => t.used = true →
    (t.kind = .listening → t.lst ≠ none) ∧ (t.kind = .connected → t.conn ≠ none)).mpr
    ⟨fun _ => ⟨hlst, hconn⟩, fun k' _ hu => ⟨h.sock_lst k' hu, h.sock_conn k' hu⟩⟩ k' hu

theorem LoopNet.Tied.newFile (h : N.Tied full) (hi : (N.files i).ops = false)
    (hk : (N.socks k).used = false) (hs : s.used = true) (hkind : s.kind ≠ .listening)
    (hlistens : Owned full N.sockListen fun l => (listens l).used = true)
    (hconns : Owned full (LoopNet.connAt ({ N with listens := listens }.setSock k s)) fun c =>
      (N.conns c).used = true) :
    (({ N with listens := listens }.setSock k s).setFile i ⟨true, some k⟩).Tied full := by
  refine ⟨?_, hlistens.congr ?_ fun _ => .rfl, hconns, h.peers⟩
  · rw [fileSock_setFile]
    exact (h.socks.take (fun _ => SockFile.held_of_closed hi) fun hn =>
      Bool.false_ne_true (hk.symm.trans hn)).congr rfl
      (update_live_iff (P := fun s : LoopSock => s.used = true) hs)
  · refine (sockListen_setSock ..).trans ?_
    rw [LoopSock.heldListen_of_kind hkind]
    exact update_eq_self_iff.mpr (LoopSock.heldListen_of_unused hk).symm

theorem LoopNet.Inv.newFile (h : N.Inv held) (hkind : s.kind ≠ .listening)
    (hconn : s.kind = .connected → s.conn ≠ none)
    (htied : (({ N with listens := listens }.setSock k s).setFile i ⟨true, some k⟩).Tied True)
    (hqueued : ∀ l, (listens l).used = true → (listens l).Queued) :
    (({ N with listens := listens }.setSock k s).setFile i ⟨true, some k⟩).Inv
      fun j => held j ∨ j = i := by
  refine ⟨fun j => ?_, ?_, fun k' hu => (h.sock_update (fun hn => absurd hn hkind) hconn k' hu).1,
    fun k' hu => (h.sock_update (fun hn => absurd hn hkind) hconn k' hu).2, htied.socks.owns,
    htied.listens.owns, htied.conns.owns, htied.peers, hqueued⟩
  · rw [← h.ops_iff j]
    exact update_live_iff (P := fun f : SockFile => f.ops = true) rfl j
  · exact (Function.forall_update_iff N.files fun _ f => f.ops = true → f.sock ≠ none).mpr
      ⟨fun _ => Option.some_ne_none k, fun j _ => h.file_sock j⟩

/-- What the first half of `loop_socket` does with the pools. -/
inductive SocketMade (N : LoopNet) : Option ℕ × LoopNet → Prop
  | made (i k : ℕ) (hi : (N.files i).ops = false) (hk : (N.socks k).used = false) :
      SocketMade N (some i, (N.setSock k ⟨true, .fresh, none, none⟩).setFile i ⟨true, some k⟩)
  | failed : SocketMade N (none, N)
  /-- The socket is given back. -/
  | undone (k : ℕ) (hk : (N.socks k).used = false) :
      SocketMade N (none, N.setSock k ⟨false, .fresh, none, none⟩)

theorem loopSocketFile_cases (N : LoopNet) : SocketMade N (loopSocketFile N) := by
  unfold loopSocketFile
  rcases loopSockAlloc_cases N with hs | ⟨k, hk, hs⟩
  · rw [hs]
    exact .failed
  · rw [hs]
    dsimp only
    rcases loopFileAlloc_cases (N.setSock k ⟨true, .fresh, none, none⟩) with hf | ⟨i, hi, hf⟩
    · rw [hf]
      simp only [LoopNet.setSock, update_self, update_idem]
      exact .undone k hk
    · rw [hf]
      simp only [LoopNet.setFile, update_self, update_idem]
      exact .made i k hi hk

/-- What `loop_accept` does with the pools up to the descriptor, after the endpoint has left the
queue. -/
inductive AcceptMade (P : LoopNet) (o : Option ℕ) : Option ℕ × LoopNet → Prop
  | made (i k : ℕ) (hi : (P.files i).ops = false) (hk : (P.socks k).used = false) :
      AcceptMade P o (some i, (P.setSock k ⟨true, .connected, none, o⟩).setFile i ⟨true, some k⟩)
  | failed : AcceptMade P o (none, P)
  | noFile (k : ℕ) (hk : (P.socks k).used = false) :
      AcceptMade P o (none, P.setSock k ⟨false, .fresh, none, none⟩)
  | noSock (i : ℕ) (hi : (P.files i).ops = false) :
      AcceptMade P o (none, P.setFile i ⟨false, none⟩)

theorem loopAcceptFile_cases (N : LoopNet) (l : ℕ) :
    AcceptMade (popPending N l).2 (popPending N l).1 (loopAcceptFile N l) := by
  rw [loopAcceptFile]
  generalize popPending N l = server
  obtain ⟨o, P⟩ := server
  dsimp only
  rcases loopSockAlloc_cases P with hs | ⟨k, hk, hs⟩
  · rw [hs]
    dsimp only
    rcases loopFileAlloc_cases P with hf | ⟨i, hi, hf⟩
    · rw [hf]
      exact .failed
    · rw [hf]
      simp only [LoopNet.setFile, update_self, update_idem]
      exact .noSock i hi
  · rw [hs]
    dsimp only
    rcases loopFileAlloc_cases (P.setSock k ⟨true, .fresh, none, none⟩) with hf | ⟨i, hi, hf⟩
    · rw [hf]
      simp only [LoopNet.setSock, update_self, update_idem]
      exact .noFile k hk
    · rw [hf]
      simp only [LoopNet.setSock, LoopNet.setFile, update_idem]
      exact .made i k hi hk

theorem LoopNet.Tied.socket (h : N.Tied full) (hi : (N.files i).ops = false)
    (hk : (N.socks k).used = false) :
    ((N.setSock k ⟨true, .fresh, none, none⟩).setFile i ⟨true, some k⟩).Tied full := by
  refine h.newFile hi hk rfl (by decide) h.listens ?_
  refine h.conns.congr ((connAt_setSock ..).trans ?_) fun c => Iff.rfl
  exact update_eq_self_iff.mpr (LoopSock.heldConn_of_unused hk).symm

theorem LoopNet.Inv.socket (h : N.Inv held) (hi : (N.files i).ops = false)
    (hk : (N.socks k).used = false) :
    ((N.setSock k ⟨true, .fresh, none, none⟩).setFile i ⟨true, some k⟩).Inv fun j => held j ∨ j = i :=
  h.newFile (by decide) (by decide) (h.tied.socket hi hk) h.queued

theorem loopUndo_eq (N : LoopNet) (i k : ℕ) (s : LoopSock) :
    loopUndo ((N.setSock k s).setFile i ⟨true, some k⟩) i =
      (N.setSock k { s with used := false }).setFile i ⟨false, some k⟩ := by
  simp only [loopUndo, LoopNet.setFile, LoopNet.setSock, update_self,
    update_idem]

theorem LoopNet.Inv.undo (h : N.Inv held) (hi : (N.files i).ops = false)
    (hk : (N.socks k).used = false) :
    (loopUndo ((N.setSock k ⟨true, .fresh, none, none⟩).setFile i ⟨true, some k⟩) i).Inv held := by
  rw [loopUndo_eq]
  exact h.congr (update_same_or (P := fun f : SockFile => f.ops = false) rfl hi)
    (update_same_or (P := fun s : LoopSock => s.used = false) rfl hk) (fun _ => .inl rfl) rfl

theorem LoopNet.Inv.setSock_unused (h : N.Inv held) (hk : (N.socks k).used = false)
    (hs : s.used = false) : (N.setSock k s).Inv held :=
  h.congr (fun _ => .inl rfl) (update_same_or (P := fun s : LoopSock => s.used = false) hs hk)
    (fun _ => .inl rfl) rfl

end Open

/-! ### Queues -/

section Queues

variable {N : LoopNet} {held : ℕ → Prop}

theorem queued_empty (used listening : Bool) (port : ℕ) :
    LoopListen.Queued ⟨used, listening, port, .empty (fun _ => none) loopBacklog_pos⟩ :=
  fun j _ => iff_of_true rfl (Nat.zero_le j)

theorem LoopListen.Queued.enqueue (h : x.Queued) (hfull : x.pending.count < loopBacklog)
    (d : ℕ) : x.pending.slots x.pending.tail = none ∧
      LoopListen.Queued { x with pending := x.pending.enqueue (some d) } := by
  have htail := x.pending.tail_eq
  obtain ⟨hslots, hhead, hcount⟩ := Ring.enqueue_fields hfull (some d)
  constructor
  · rw [htail]
    exact (h _ hfull).mpr le_rfl
  · intro j hj
    dsimp only
    rw [hslots, hhead, hcount]
    by_cases hjc : j = x.pending.count
    · rw [hjc, ← htail, update_self]
      exact iff_of_false (Option.some_ne_none d) (Nat.not_succ_le_self _)
    · rw [update_of_ne, h j hj]
      · omega
      · rw [htail]
        exact fun he => hjc (slot_inj hj hfull he)

theorem LoopListen.Queued.pop (h : x.Queued) (hpos : x.pending.count ≠ 0) :
    (∃ d, x.pending.slots x.pending.head = some d) ∧
      LoopListen.Queued { x with pending := { x.pending.dequeue.2 with
        slots := update x.pending.dequeue.2.slots x.pending.head none } } := by
  have hlt := x.pending.head_lt
  obtain ⟨hslots, hhead, hcount⟩ := Ring.dequeue_fields (Nat.pos_of_ne_zero hpos)
  constructor
  · have hfirst := h 0 (by decide)
    rw [Nat.add_zero, Nat.mod_eq_of_lt hlt] at hfirst
    exact Option.ne_none_iff_exists'.mp fun hn => hpos (Nat.le_zero.mp (hfirst.mp hn))
  · intro j hj
    dsimp only
    rw [hslots, hhead, hcount, Nat.mod_add_mod, Nat.add_assoc, Nat.add_comm 1 j]
    by_cases hlast : j + 1 = loopBacklog
    · rw [hlast, Nat.add_mod_right, Nat.mod_eq_of_lt hlt, update_self]
      have hle := x.pending.count_le
      exact iff_of_true rfl (by omega)
    · have hj' : j + 1 < loopBacklog := by omega
      rw [update_of_ne, h (j + 1) hj']
      · omega
      · intro he
        have := slot_inj (i := j + 1) (j := 0) hj' (by decide)
          (he.trans (by rw [Nat.add_zero, Nat.mod_eq_of_lt hlt]))
        omega

theorem LoopNet.Inv.queued_update (h : N.Inv held) (hx : x.Queued) (l' : ℕ)
    (hu : (update N.listens l x l').used = true) :
    (update N.listens l x l').Queued :=
  (Function.forall_update_iff N.listens fun _ y => y.used = true → y.Queued).mpr
    ⟨fun _ => hx, fun l' _ => h.queued l'⟩ l' hu

end Queues

/-! ### What the calls do -/

section Cases

/-- What `loop_bind` does with the pools: it makes a listener for a port that has none. -/
inductive BindMade (N : LoopNet) (i : ℕ) (addr : SockAddr) : ℤ × LoopNet → Prop
  | refused (v : ℤ) : BindMade N i addr (v, N)
  | made (k l : ℕ) (hk : (N.files i).sock = some k) (hkind : (N.socks k).kind = .fresh)
      (hl : (N.listens l).used = false) (hlt : l < loopMaxListen)
      (hport : ∀ l' < loopMaxListen, (N.listens l').used = true → (N.listens l').port ≠ addr.port) :
      BindMade N i addr
        (0, (N.setListen l ⟨true, false, addr.port, .empty (fun _ => none) loopBacklog_pos⟩).setSock k
          { N.socks k with kind := .listening, lst := some l })

theorem loopBind_cases (N : LoopNet) (i : ℕ) (addr : SockAddr) :
    BindMade N i addr (loopBind N i addr) := by
  unfold loopBind
  rcases hk : (N.files i).sock with _ | k
  · exact .refused _
  dsimp only
  split_ifs with hkind hfam hlo hport hbusy
  any_goals exact .refused _
  unfold loopListenAlloc
  rcases hf : firstFree (fun l => (N.listens l).used) 0 loopMaxListen with _ | l
  · exact .refused _
  obtain ⟨-, hlt, hl⟩ := firstFree_eq_some hf
  simp only [LoopNet.setListen, update_self, update_idem]
  exact .made k l hk (not_not.mp hkind) hl hlt fun l' hlt' hu hp => hbusy ⟨l', hlt', hu, hp⟩

theorem loopListen_cases (N : LoopNet) (i : ℕ) : (loopListen N i).2 = N ∨
    ∃ l, (loopListen N i).2 = N.setListen l { N.listens l with listening := true } := by
  unfold loopListen
  rcases (N.files i).sock with _ | k
  · exact .inl rfl
  dsimp only
  split
  · exact .inr ⟨_, rfl⟩
  · exact .inl rfl

theorem findListener_used {N : LoopNet} {port : ℕ} (h : findListener N port = some l) :
    (N.listens l).used = true := by
  have hl := List.find?_some h
  rw [Bool.and_assoc, Bool.and_eq_true] at hl
  exact hl.1

/-- The net with a new connection of endpoints `c`, for socket `k`, and `d`, for listener `l`. -/
def LoopNet.joined (N : LoopNet) (k l c d port : ℕ) : LoopNet :=
  (LoopNet.setListen
    { N with
      conns := update (update N.conns c ⟨true, false, 0, some d⟩) d
        ⟨true, false, port, some c⟩ } l
    { N.listens l with pending := (N.listens l).pending.enqueue (some d) }).setSock k
    { N.socks k with kind := .connected, conn := some c }

/-- What `loop_connect` does with the pools, and what its two allocations have found. -/
inductive ConnectMade (N : LoopNet) (i : ℕ) (addr : SockAddr) : ℤ × LoopNet → Prop
  | refused (v : ℤ) (h0 : v ≠ 0) (h12 : v ≠ -12) : ConnectMade N i addr (v, N)
  | none (hclient : loopConnAlloc N = (none, N)) : ConnectMade N i addr (-12, N)
  /-- One endpoint was taken and given back. -/
  | full (c : ℕ) (hc : (N.conns c).used = false)
      (hclient : loopConnAlloc N = (some c, N.setConn c ⟨true, false, 0, .none⟩))
      (hserver : loopConnAlloc (N.setConn c ⟨true, false, 0, .none⟩) =
        (.none, N.setConn c ⟨true, false, 0, .none⟩)) :
      ConnectMade N i addr (-12, N.setConn c ⟨false, false, 0, .none⟩)
  | made (k l c d : ℕ) (hk : (N.files i).sock = some k) (hkind : (N.socks k).kind = .fresh)
      (hl : (N.listens l).used = true) (hroom : (N.listens l).pending.count < loopBacklog)
      (hc : (N.conns c).used = false) (hd : (N.conns d).used = false) (hne : d ≠ c)
      (hclient : loopConnAlloc N = (some c, N.setConn c ⟨true, false, 0, .none⟩))
      (hserver : loopConnAlloc (N.setConn c ⟨true, false, 0, .none⟩) =
        (some d, (N.setConn c ⟨true, false, 0, .none⟩).setConn d ⟨true, false, 0, .none⟩)) :
      ConnectMade N i addr (0, N.joined k l c d addr.port)

theorem loopConnect_cases (N : LoopNet) (i : ℕ) (addr : SockAddr) :
    ConnectMade N i addr (loopConnect N i addr) := by
  unfold loopConnect
  rcases hk : (N.files i).sock with _ | k
  · exact .refused _ (by decide) (by decide)
  dsimp only
  split_ifs with hkind hfam hlo hport
  any_goals exact .refused _ (by decide) (by decide)
  rcases hfind : findListener N addr.port with _ | l
  · exact .refused _ (by decide) (by decide)
  dsimp only
  split_ifs with hfull
  · exact .refused _ (by decide) (by decide)
  rcases loopConnAlloc_cases N with hclient | ⟨c, hc, hclient⟩
  · -- no endpoint for the client, and so none for the server
    simp only [hclient]
    exact .none hclient
  simp only [hclient]
  rcases loopConnAlloc_cases (N.setConn c ⟨true, false, 0, none⟩) with hserver | ⟨d, hd, hserver⟩
  · simp only [hserver]
    have hback : (N.setConn c ⟨true, false, 0, none⟩).setConn c
        { (N.setConn c ⟨true, false, 0, none⟩).conns c with used := false } =
        N.setConn c ⟨false, false, 0, none⟩ := by
      simp only [LoopNet.setConn, update_self, update_idem]
    rw [hback]
    exact .full c hc hclient hserver
  have hne : d ≠ c := by
    rintro rfl
    simp only [LoopNet.setConn, update_self] at hd
    exact Bool.false_ne_true hd.symm
  have hd' : (N.conns d).used = false :=
    (congrArg LoopConn.used (update_of_ne hne ..)).symm.trans hd
  have hconns : update (update (update (update N.conns c
      ⟨true, false, 0, none⟩) d ⟨true, false, 0, none⟩) c ⟨true, false, 0, some d⟩) d
      ⟨true, false, addr.port, some c⟩ =
      update (update N.conns c ⟨true, false, 0, some d⟩) d
        ⟨true, false, addr.port, some c⟩ := by
    rw [update_comm hne, update_idem, update_idem]
  simp only [hserver]
  simp only [LoopNet.setConn, hconns]
  exact .made k l c d hk (not_not.mp hkind) (findListener_used hfind) (Nat.not_le.mp hfull) hc hd' hne
    hclient hserver

end Cases

/-! ### Listening and connecting -/

section Calls

variable {full : Prop} {N : LoopNet} {held : ℕ → Prop} {i : ℕ}

theorem LoopNet.Tied.change (h : N.Tied full) (hk : (N.socks k).used = true) (hs : s.used = true)
    (hlistens : Owned full (update N.sockListen k s.heldListen) fun l =>
      (listens l).used = true)
    (hconns : Owned full (update (LoopNet.connAt ⟨N.files, N.socks, listens, conns⟩)
      (.sock k) s.heldConn) fun c => (conns c).used = true)
    (hpeers : Peers conns) : (LoopNet.setSock ⟨N.files, N.socks, listens, conns⟩ k s).Tied full :=
  ⟨h.socks.congr rfl
      (update_same_iff (P := fun s : LoopSock => s.used = true) (iff_of_true hs hk)),
    hlistens.congr (sockListen_setSock ..) fun _ => Iff.rfl,
    hconns.congr (connAt_setSock ..) fun _ => Iff.rfl, hpeers⟩

theorem LoopNet.Inv.change (h : N.Inv held)
    (hlst : s.kind = .listening → s.lst ≠ none) (hconn : s.kind = .connected → s.conn ≠ none)
    (htied : (LoopNet.setSock ⟨N.files, N.socks, listens, conns⟩ k s).Tied True)
    (hqueued : ∀ l, (listens l).used = true → (listens l).Queued) :
    (LoopNet.setSock ⟨N.files, N.socks, listens, conns⟩ k s).Inv held :=
  ⟨h.ops_iff, h.file_sock, fun k' hu => (h.sock_update hlst hconn k' hu).1,
    fun k' hu => (h.sock_update hlst hconn k' hu).2, htied.socks.owns, htied.listens.owns,
    htied.conns.owns, htied.peers, hqueued⟩

theorem LoopNet.Tied.sock_used (h : N.Tied full) (hi : (N.files i).ops = true)
    (hk : (N.files i).sock = some k) : (N.socks k).used = true :=
  h.socks.isLive (i := i) ((if_pos hi).trans hk)

theorem LoopNet.Tied.bind (h : N.Tied full) (hku : (N.socks k).used = true)
    (hkind : (N.socks k).kind = .fresh) (hl : (N.listens l).used = false) (port : ℕ) :
    ((N.setListen l ⟨true, false, port, .empty (fun _ => none) loopBacklog_pos⟩).setSock k
      { N.socks k with kind := .listening, lst := some l }).Tied full := by
  have hnol : N.sockListen k = none := LoopSock.heldListen_of_kind (by rw [hkind]; decide)
  have hnoc : N.connAt (.sock k) = none := LoopSock.heldConn_of_kind (by rw [hkind]; decide)
  refine h.change (s := { N.socks k with kind := .listening, lst := some l }) hku hku ?_ ?_ h.peers
  · rw [show LoopSock.heldListen { N.socks k with kind := .listening, lst := some l } = some l from
      if_pos ⟨hku, rfl⟩]
    exact (h.listens.take (fun _ => hnol) fun hn => Bool.false_ne_true (hl.symm.trans hn)).congr rfl
      (update_live_iff (P := fun x : LoopListen => x.used = true) rfl)
  · rw [LoopSock.heldConn_of_kind (fun hn => SockKind.noConfusion hn)]
    refine h.conns.congr ?_ fun c => Iff.rfl
    have hplaces := connAt_setListen_of_eq N (l := l)
      fun j => (heldConn_empty true false port j).trans (heldConn_of_unused hl j).symm
    exact (congrArg (fun f => update f (ConnPlace.sock k) none) hplaces).trans
      (update_eq_self_iff.mpr hnoc.symm)

theorem LoopNet.Inv.bind (h : N.Inv held) (hi : held i) (addr : SockAddr) :
    (loopBind N i addr).2.Inv held := by
  have hmade := loopBind_cases N i addr
  generalize loopBind N i addr = r at hmade
  cases hmade with
  | refused v => exact h
  | made k l hk hkind hl hlt hport =>
    have hku := h.tied.sock_used ((h.ops_iff i).mpr hi) hk
    exact h.change (fun _ => Option.some_ne_none l) (fun hn => SockKind.noConfusion hn)
      (h.tied.bind hku hkind hl addr.port) (h.queued_update (queued_empty true false addr.port))

theorem LoopNet.Tied.listen (h : N.Tied full) (l : ℕ) :
    (N.setListen l { N.listens l with listening := true }).Tied full :=
  ⟨h.socks, h.listens.congr rfl
      (update_same_iff (P := fun x : LoopListen => x.used = true) Iff.rfl),
    h.conns.congr (connAt_setListen_of_eq N fun _ => rfl) fun _ => .rfl, h.peers⟩

theorem LoopNet.Inv.listen (h : N.Inv held) (_hi : held i) : (loopListen N i).2.Inv held := by
  rcases loopListen_cases N i with heq | ⟨l, heq⟩
  · rw [heq]
    exact h
  · have ht := h.tied.listen l
    rw [heq]
    refine ⟨h.ops_iff, h.file_sock, h.sock_lst, h.sock_conn, ht.socks.owns, ht.listens.owns,
      ht.conns.owns, ht.peers, ?_⟩
    exact (Function.forall_update_iff N.listens fun _ x => x.used = true → x.Queued).mpr
      ⟨fun hu => h.queued l hu, fun l' _ => h.queued l'⟩

theorem Peers.connect (h : Peers conns) {d port : ℕ} (hne : d ≠ c)
    (hc : (conns c).used = false) (hd : (conns d).used = false) :
    Peers (update (update conns c ⟨true, false, 0, some d⟩) d
      ⟨true, false, port, some c⟩) := by
  generalize hcs : update (update conns c ⟨true, false, 0, some d⟩) d
    ⟨true, false, port, some c⟩ = conns'
  have hcd : conns' d = ⟨true, false, port, some c⟩ := by rw [← hcs, update_self]
  have hcc : conns' c = ⟨true, false, 0, some d⟩ := by
    rw [← hcs, update_of_ne hne.symm, update_self]
  have hco : ∀ a, a ≠ c → a ≠ d → conns' a = conns a := fun a hac had => by
    rw [← hcs, update_of_ne had, update_of_ne hac]
  -- an old endpoint, and so its peer, is neither of the two
  have hold : ∀ {a}, (conns a).used = true → a ≠ c ∧ a ≠ d := fun ha =>
    ⟨fun hac => Bool.false_ne_true (hc.symm.trans (hac ▸ ha)),
      fun had => Bool.false_ne_true (hd.symm.trans (had ▸ ha))⟩
  refine ⟨fun a b ha hb => ?_, fun a ha => ?_⟩
  · by_cases hac : a = c
    · rw [hac, hcc] at hb
      obtain rfl : d = b := Option.some.inj hb
      rw [hac, hcd]
      exact ⟨hne, rfl, rfl⟩
    · by_cases had : a = d
      · rw [had, hcd] at hb
        obtain rfl : c = b := Option.some.inj hb
        rw [had, hcc]
        exact ⟨hne.symm, rfl, rfl⟩
      · rw [hco a hac had] at ha hb
        obtain ⟨hba, hbu, hbp⟩ := h.sym a b ha hb
        rw [hco b (hold hbu).1 (hold hbu).2]
        exact ⟨hba, hbu, hbp⟩
  · by_cases hac : a = c
    · rw [hac, hcc]
      exact iff_of_false Bool.false_ne_true (Option.some_ne_none d)
    · by_cases had : a = d
      · rw [had, hcd]
        exact iff_of_false Bool.false_ne_true (Option.some_ne_none c)
      · rw [hco a hac had] at ha ⊢
        exact h.closed a ha

theorem LoopNet.Tied.connect (h : N.Tied full) {d : ℕ} (hku : (N.socks k).used = true)
    (hkind : (N.socks k).kind = .fresh) (hl : (N.listens l).used = true)
    (hroom : (N.listens l).pending.count < loopBacklog)
    (hslot : full → (N.listens l).pending.slots (N.listens l).pending.tail = none)
    (hc : (N.conns c).used = false) (hd : (N.conns d).used = false) (hne : d ≠ c) (port : ℕ) :
    (N.joined k l c d port).Tied full := by
  have hnol : N.sockListen k = none := LoopSock.heldListen_of_kind (by rw [hkind]; decide)
  have hnoc : N.connAt (.sock k) = none := LoopSock.heldConn_of_kind (by rw [hkind]; decide)
  have hlt : (N.listens l).pending.tail < loopBacklog := by
    rw [(N.listens l).pending.tail_eq]
    exact Nat.mod_lt _ loopBacklog_pos
  refine h.change (s := { N.socks k with kind := .connected, conn := some c }) hku hku ?_ ?_
    (h.peers.connect hne hc hd)
  · rw [LoopSock.heldListen_of_kind (fun hn => SockKind.noConfusion hn),
      update_eq_self_iff.mpr hnol.symm]
    exact h.listens.congr rfl (update_same_iff (P := fun x : LoopListen => x.used = true) Iff.rfl)
  · rw [show LoopSock.heldConn { N.socks k with kind := .connected, conn := some c } = some c from
      if_pos ⟨hku, rfl⟩]
    have hplaces := connAt_setListen N (l := l) (j := (N.listens l).pending.tail) (c := some d)
      (x := { N.listens l with pending := (N.listens l).pending.enqueue (some d) }) fun j => by
        unfold LoopListen.heldConn
        dsimp only
        rw [(Ring.enqueue_fields hroom (some d)).1]
        by_cases hj : j = (N.listens l).pending.tail
        · rw [hj, update_self, if_pos ⟨hl, hlt⟩, if_pos rfl]
        · rw [update_of_ne hj, if_neg hj]
    have hfree : full → N.connAt (.pending l (N.listens l).pending.tail) = none := fun hf =>
      (if_pos ⟨hl, hlt⟩).trans (hslot hf)
    have hown := (h.conns.take hfree fun hn => Bool.false_ne_true (hd.symm.trans hn)).take
      (i := .sock k) (k := c) (fun _ => by rw [update_of_ne (by simp), hnoc])
      fun hn => hn.elim (fun hn => Bool.false_ne_true (hc.symm.trans hn)) hne.symm
    have hat := congrArg (fun f => update f (ConnPlace.sock k) (some c)) hplaces
    refine hown.congr hat fun a => ?_
    refine (update_live_iff (P := fun x : LoopConn => x.used = true) rfl a).trans ?_
    rw [update_live_iff (P := fun x : LoopConn => x.used = true) rfl a, or_right_comm]

theorem LoopNet.Inv.connect (h : N.Inv held) (hi : held i) (addr : SockAddr) :
    (loopConnect N i addr).2.Inv held := by
  have hmade := loopConnect_cases N i addr
  generalize loopConnect N i addr = r at hmade
  cases hmade with
  | refused v => exact h
  | none => exact h
  | full c hc =>
    exact h.congr (fun _ => .inl rfl) (fun _ => .inl rfl)
      (update_same_or (P := fun x : LoopConn => x.used = false) rfl hc) rfl
  | made k l c d hk hkind hl hroom hc hd hne =>
    have hku := h.tied.sock_used ((h.ops_iff i).mpr hi) hk
    obtain ⟨hslot, hqueue⟩ := (h.queued l hl).enqueue hroom d
    exact h.change (fun hn => SockKind.noConfusion hn) (fun _ => Option.some_ne_none c)
      (h.tied.connect hku hkind hl hroom (fun _ => hslot) hc hd hne addr.port)
      (h.queued_update hqueue)

theorem LoopNet.Tied.acceptFrom_eq_ok (h : N.Tied full) (hi : (N.files i).ops = true)
    (hl : acceptFrom N i = .ok l) :
    (N.listens l).used = true ∧ (N.listens l).pending.count ≠ 0 := by
  unfold acceptFrom at hl
  rcases hk : (N.files i).sock with _ | k
  · rw [hk] at hl
    cases hl
  rw [hk] at hl
  dsimp only at hl
  split at hl
  · rename_i l' hkind hlst
    split_ifs at hl with hlist hpos
    obtain rfl := Except.ok.inj hl
    have hheld := LoopSock.heldListen_eq (h.sock_used hi hk) hkind
    exact ⟨h.listens.isLive (i := k) (hheld.trans hlst), hpos⟩
  · cases hl

theorem LoopNet.Tied.accept (h : N.Tied full) (hl : (N.listens l).used = true)
    (hj : (N.files j).ops = false) (hk : (N.socks k).used = false) :
    (((popPending N l).2.setSock k ⟨true, .connected, none, (popPending N l).1⟩).setFile j
      ⟨true, some k⟩).Tied full := by
  have hplace : N.connAt (.pending l (N.listens l).pending.head) = (popPending N l).1 :=
    if_pos ⟨hl, (N.listens l).pending.head_lt⟩
  have hnoc : N.connAt (.sock k) = none := LoopSock.heldConn_of_unused hk
  refine h.newFile hj hk rfl (fun hn => SockKind.noConfusion hn)
    (h.listens.congr rfl (update_same_iff (P := fun x : LoopListen => x.used = true) Iff.rfl)) ?_
  suffices hpass : Owned full (update (update N.connAt
      (.pending l (N.listens l).pending.head) none) (.sock k) (popPending N l).1)
      fun c => (N.conns c).used = true by
    refine hpass.congr ?_ fun _ => Iff.rfl
    refine (connAt_setSock ..).trans ?_
    rw [LoopSock.heldConn_eq rfl rfl]
    exact congrArg (fun f => update f (ConnPlace.sock k) (popPending N l).1)
      (connAt_popPending N l)
  rcases hd : (popPending N l).1 with _ | d
  · have hsame : update N.connAt (.pending l (N.listens l).pending.head) none = N.connAt :=
      update_eq_self_iff.mpr (hplace.trans hd).symm
    rw [hsame, update_eq_self_iff.mpr hnoc.symm]
    exact h.conns
  · exact h.conns.pass (hplace.trans hd) hnoc

theorem LoopNet.Inv.accept (h : N.Inv held) (hl : (N.listens l).used = true)
    (hpos : (N.listens l).pending.count ≠ 0) (hj : (loopAcceptFile N l).1 = some j) :
    ¬ held j ∧ (loopAcceptFile N l).2.Inv fun j' => held j' ∨ j' = j := by
  obtain ⟨⟨d, hd⟩, hqueue⟩ := (h.queued l hl).pop hpos
  have hmade := loopAcceptFile_cases N l
  generalize loopAcceptFile N l = r at hmade hj
  cases hmade with
  | failed => cases hj
  | noFile => cases hj
  | noSock => cases hj
  | made i k hi hk =>
    obtain rfl : i = j := Option.some.inj hj
    refine ⟨fun hh => Bool.false_ne_true (hi.symm.trans ((h.ops_iff i).mpr hh)), ?_⟩
    refine h.newFile (fun hn => SockKind.noConfusion hn) (fun _ => ?_) (h.tied.accept hl hi hk)
      (h.queued_update hqueue)
    exact fun hn => Option.some_ne_none d (hd.symm.trans hn)

theorem loopAcceptFile_ne_none (l : ℕ)
    (hsock : firstFree (fun k => (N.socks k).used) 0 loopMaxSocks ≠ none)
    (hfile : firstFree (fun i => (N.files i).ops) 0 loopMaxFiles ≠ none) :
    (loopAcceptFile N l).1 ≠ none := by
  obtain ⟨k, hk⟩ := Option.ne_none_iff_exists'.mp hsock
  obtain ⟨i, hi⟩ := Option.ne_none_iff_exists'.mp hfile
  have hs : loopSockAlloc (popPending N l).2 =
      (some k, (popPending N l).2.setSock k ⟨true, .fresh, none, none⟩) := by
    unfold loopSockAlloc
    rw [show (popPending N l).2.socks = N.socks from rfl, hk]
  have hf : loopFileAlloc ((popPending N l).2.setSock k ⟨true, .fresh, none, none⟩) =
      (some i, ((popPending N l).2.setSock k ⟨true, .fresh, none, none⟩).setFile i ⟨true, none⟩) := by
    unfold loopFileAlloc
    rw [show ((popPending N l).2.setSock k ⟨true, .fresh, none, none⟩).files = N.files from rfl, hi]
  unfold loopAcceptFile
  dsimp only
  rw [hs, hf]
  exact Option.some_ne_none i

end Calls

end BananaOS.Fs
