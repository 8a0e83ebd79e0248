import BananaOS.Fs.LoopStream

/-!
# The streams arrive

The calls of `Fs.LoopStream` keep two invariants.  `Links` is about the pools alone.  Each call is a
few changes of single entries; a change keeps `Links` if what the entry refers to afterwards is in
use and not referred to elsewhere, and the entries are changed in such an order that this is so
after every one of them.  A call other than `connect`, `send` and `recv` leaves the endpoints as
they are or releases some, which is all that `Traffic.Inv` has to know about it
(`Traffic.Inv.shrink`).
-/

namespace BananaOS.Fs

open Function SlotTable RingQueue Ownership GuardedRun

/-! ## References -/

/-- **What is referred to is in use, and by one reference only**; the two endpoints of a connection
refer to each other, and a port has one listener. -/
structure Links (N : LoopNet) : Prop where
  socks : Holds N.fileSock fun k => (N.socks k).used = true
  listens : Holds N.sockListen fun l => (N.listens l).used = true
  conns : Holds N.connAt fun c => (N.conns c).used = true
  peers : Peers N.conns
  listens_lt : ∀ l, (N.listens l).used = true → l < loopMaxListen
  ports : ∀ l l', (N.listens l).used = true → (N.listens l').used = true →
    (N.listens l).port = (N.listens l').port → l = l'

variable {i k c : ℕ} {e : End}

section References

variable {N N' : LoopNet}

theorem Links.tied (h : Links N) : N.Tied False :=
  ⟨h.socks.owned, h.listens.owned, h.conns.owned, h.peers⟩

theorem Links.of_tied (h : Links N) (ht : N'.Tied False)
    (hkept : ∀ l, (N'.listens l).used = true →
      (N.listens l).used = true ∧ (N'.listens l).port = (N.listens l).port) : Links N' where
  socks := ht.socks.toHolds
  listens := ht.listens.toHolds
  conns := ht.conns.toHolds
  peers := ht.peers
  listens_lt := fun l hu => h.listens_lt l (hkept l hu).1
  ports := fun l l' hu hu' hp => by
    rw [(hkept l hu).2, (hkept l' hu').2] at hp
    exact h.ports l l' (hkept l hu).1 (hkept l' hu').1 hp

end References

/-! ## Calls that release endpoints -/

section Release

variable {N N' N'' : LoopNet}

theorem connOf_eq_of {j : ℕ} (hk : ∀ j, j ≠ i → N.fileSock j ≠ some k)
    (hfiles : ∀ j, j ≠ i → N'.files j = N.files j)
    (hsocks : ∀ k', k' ≠ k → N'.socks k' = N.socks k') (hj : j ≠ i) : N'.connOf j = N.connOf j := by
  have hfile : N'.fileSock j = N.fileSock j := congrArg SockFile.held (hfiles j hj)
  simp only [LoopNet.connOf, hfile]
  rcases hs : N.fileSock j with _ | k'
  · rfl
  · have hne : k' ≠ k := fun he => hk j hj (he ▸ hs)
    exact congrArg LoopSock.heldConn (hsocks k' hne)

theorem connOf_of_closed (h : (N.files i).ops = false) : N.connOf i = none := by
  have hnone : N.fileSock i = none := SockFile.held_of_closed h
  rw [LoopNet.connOf, hnone]
  rfl

theorem connOf_of_open (h : (N.files i).ops = true) (hk : (N.files i).sock = some k) :
    N.connOf i = (N.socks k).heldConn := by
  have hsome : N.fileSock i = some k := (if_pos h).trans hk
  rw [LoopNet.connOf, hsome]
  rfl

theorem Links.sockConn_eq (h : Links N) (hi : (N.files i).ops = true) :
    sockConn N i = N.connOf i := by
  rw [sockConn]
  rcases hk : (N.files i).sock with _ | k
  · have hnone : N.fileSock i = none := (if_pos hi).trans hk
    rw [LoopNet.connOf, hnone]
    rfl
  · rw [connOf_of_open hi hk, LoopSock.heldConn]
    exact if_congr (by rw [and_iff_right (h.tied.sock_used hi hk)]) rfl rfl

/-- A call that leaves the endpoints as they are or releases some.  The descriptors keep their
endpoints, but for one that lets go of it. -/
structure Sheds (N N' : LoopNet) (off : Option ℕ) : Prop where
  links : Links N'
  shrinks : Shrinks N N'
  connOf : ∀ j, N'.connOf j = if off = some j then none else N.connOf j

theorem Sheds.of_links (h : Links N') (hconns : N'.conns = N.conns)
    (hconnOf : ∀ j, N'.connOf j = N.connOf j) : Sheds N N' none :=
  ⟨h, .of_eq hconns, fun j => (hconnOf j).trans (if_neg nofun).symm⟩

theorem Sheds.trans {off : Option ℕ} (h : Sheds N N' none) (h' : Sheds N' N'' off) :
    Sheds N N'' off := by
  refine ⟨h'.links, h.shrinks.trans h'.shrinks, fun j => ?_⟩
  rw [h'.connOf, (h.connOf j).trans (if_neg nofun)]

section

variable (h : Links N)

include h

theorem Links.spare
    (hfiles : ∀ i, N'.files i = N.files i ∨ ((N'.files i).ops = false ∧ (N.files i).ops = false))
    (hsocks : ∀ k, N'.socks k = N.socks k ∨ ((N'.socks k).used = false ∧ (N.socks k).used = false))
    (hlistens : N'.listens = N.listens) (hconns : N'.conns = N.conns) : Sheds N N' none := by
  have ht := h.tied.congr hfiles hsocks (fun c => .inl (congrFun hconns c)) hlistens
  refine .of_links (h.of_tied ht fun l hu => ?_) hconns fun j => ?_
  · rw [hlistens] at hu ⊢
    exact ⟨hu, rfl⟩
  · have hfile : N'.fileSock j = N.fileSock j := SockFile.held_congr (hfiles j)
    simp only [LoopNet.connOf, hfile]
    exact congrArg (N.fileSock j).bind (funext fun k => LoopSock.heldConn_congr (hsocks k))

theorem Links.connOf_newFile (i : ℕ) (hk : (N.socks k).used = false)
    (s : LoopSock) (j : ℕ) : ((N.setSock k s).setFile i ⟨true, some k⟩).connOf j =
      if j = i then s.heldConn else N.connOf j := by
  by_cases hj : j = i
  · have hfile : ((N.setSock k s).setFile i ⟨true, some k⟩).files i = ⟨true, some k⟩ :=
      update_self ..
    rw [if_pos hj, hj, connOf_of_open (k := k) (congrArg SockFile.ops hfile)
      (congrArg SockFile.sock hfile)]
    exact congrArg LoopSock.heldConn (show (N.setSock k s).socks k = s from update_self ..)
  · have hno : ∀ j, N.fileSock j ≠ some k :=
      h.socks.ne_of_not_live fun hu => Bool.false_ne_true (hk.symm.trans hu)
    rw [if_neg hj]
    exact connOf_eq_of (i := i) (fun j _ => hno j) (fun j hj => update_of_ne hj ..)
      (fun k' hk' => update_of_ne hk' ..) hj

theorem Links.socket (domain type : ℕ) (fd : Bool) :
    Sheds N (loopSocket N domain type fd).2 none := by
  have hsame : Sheds N N none := .of_links h rfl fun _ => rfl
  rw [loopSocket]
  have hmade := loopSocketFile_cases N
  generalize loopSocketFile N = r at hmade
  by_cases hdomain : domain ≠ afInet
  · rw [if_pos hdomain]
    exact hsame
  by_cases htype : type ≠ sockStream
  · rw [if_neg hdomain, if_pos htype]
    exact hsame
  rw [if_neg hdomain, if_neg htype]
  cases hmade with
  | failed => exact hsame
  | undone k hk =>
    exact h.spare (fun _ => .inl rfl)
      (update_same_or (P := fun s : LoopSock => s.used = false) rfl hk) rfl rfl
  | made i k hi hk =>
    dsimp only
    split_ifs with hfd
    · refine .of_links (h.of_tied (h.tied.socket hi hk) fun _ hu => ⟨hu, rfl⟩) rfl fun j => ?_
      rw [h.connOf_newFile i hk]
      split_ifs with hj
      · rw [hj, connOf_of_closed hi]
        rfl
      · rfl
    · rw [loopUndo_eq]
      exact h.spare (update_same_or (P := fun f : SockFile => f.ops = false) rfl hi)
        (update_same_or (P := fun s : LoopSock => s.used = false) rfl hk) rfl rfl

theorem Links.connOf_setSock (hown : N.fileSock i = some k) (s : LoopSock)
    (hfiles : N'.files = N.files) (hsocks : N'.socks = update N.socks k s) (j : ℕ) :
    N'.connOf j = if j = i then s.heldConn else N.connOf j := by
  by_cases hj : j = i
  · have hfile : N'.fileSock i = some k :=
      (congrArg (fun f : ℕ → SockFile => (f i).held) hfiles).trans hown
    rw [if_pos hj, hj, LoopNet.connOf, hfile, hsocks]
    exact congrArg LoopSock.heldConn (update_self k s N.socks)
  · rw [if_neg hj]
    refine connOf_eq_of (fun j hj hjk => hj (h.socks.unique hjk hown)) (fun j _ => congrFun hfiles j)
      (fun k' hk' => ?_) hj
    rw [hsocks, update_of_ne hk']

theorem Links.bind (hi : (N.files i).ops = true) (addr : SockAddr) :
    Sheds N (loopBind N i addr).2 none := by
  have hmade := loopBind_cases N i addr
  generalize loopBind N i addr = r at hmade
  cases hmade with
  | refused v => exact .of_links h rfl fun _ => rfl
  | made k l hk hkind hl hlt hport =>
    have hku := h.tied.sock_used hi hk
    have ht := h.tied.bind hku hkind hl addr.port
    have hat : ∀ a, ((N.setListen l ⟨true, false, addr.port, .empty (fun _ => none)
        loopBacklog_pos⟩).setSock k { N.socks k with kind := .listening, lst := some l }).listens a =
        if a = l then ⟨true, false, addr.port, .empty (fun _ => none) loopBacklog_pos⟩
        else N.listens a := fun a => update_apply ..
    refine .of_links ⟨ht.socks.toHolds, ht.listens.toHolds, ht.conns.toHolds, ht.peers, fun a ha => ?_,
      fun a b ha hb hab => ?_⟩ rfl fun j => ?_
    · rw [hat] at ha
      split_ifs at ha with hal
      · exact hal ▸ hlt
      · exact h.listens_lt a ha
    · have hnew : ∀ a, (N.listens a).used = true → (N.listens a).port ≠ addr.port := fun a ha =>
        hport a (h.listens_lt a ha) ha
      rw [hat] at ha hab
      rw [hat] at hb hab
      split_ifs at ha hb hab with hal hbl hbl
      · exact hal.trans hbl.symm
      · exact absurd hab.symm (hnew b hb)
      · exact absurd hab (hnew a ha)
      · exact h.ports a b ha hb hab
    · -- neither the fresh socket nor the listening one has an endpoint
      refine (h.connOf_setSock ((if_pos hi).trans hk)
        { N.socks k with kind := .listening, lst := some l } ?_ ?_ j).trans ?_
      · rfl
      · rfl
      split_ifs with hj
      · rw [hj, connOf_of_open hi hk, LoopSock.heldConn, LoopSock.heldConn,
          if_neg fun hn => SockKind.noConfusion hn.2,
          if_neg fun hn => SockKind.noConfusion (hkind.symm.trans hn.2)]
      · rfl

theorem Links.listen (i : ℕ) : Sheds N (loopListen N i).2 none := by
  rcases loopListen_cases N i with heq | ⟨l, heq⟩
  · rw [heq]
    exact .of_links h rfl fun _ => rfl
  · rw [heq]
    refine .of_links (h.of_tied (h.tied.listen l) ?_) rfl fun _ => rfl
    exact (Function.forall_update_iff N.listens fun l x => x.used = true →
      (N.listens l).used = true ∧ x.port = (N.listens l).port).mpr
      ⟨fun hu => ⟨hu, rfl⟩, fun _ _ hu => ⟨hu, rfl⟩⟩

theorem Links.close (hi : (N.files i).ops = true) : Sheds N (loopClose N i) (some i) := by
  have hclosed := h.tied.close hi
  generalize loopClose N i = N' at hclosed
  refine ⟨h.of_tied hclosed.tied fun l hu => ?_, hclosed.shrinks, fun j => ?_⟩
  · have heq := hclosed.kept l hu
    rw [heq] at hu ⊢
    exact ⟨hu, rfl⟩
  by_cases hj : j = i
  · rw [hj, if_pos rfl]
    refine connOf_of_closed ?_
    rw [hclosed.files, update_self]
  · rw [if_neg fun hn => hj (Option.some.inj hn).symm]
    have hfile : N'.fileSock j = N.fileSock j := by
      refine congrArg SockFile.held ?_
      rw [hclosed.files, update_of_ne hj]
    simp only [LoopNet.connOf, hfile]
    rcases hs : N.fileSock j with _ | k
    · rfl
    · exact congrArg LoopSock.heldConn
        (hclosed.socks k fun hown => hj (h.socks.unique hs hown))

end

theorem closeConn_eq (N : LoopNet) (c : ℕ) :
    closeConn N c = { N with conns := (closeConn N c).conns } := by
  simp only [closeConn, tellPeer]
  cases (N.conns c).peer with
  | none => rfl
  | some d => rfl

theorem shutdown_eq (N : LoopNet) (c k : ℕ) (s : LoopSock) :
    ((tellPeer N c).setConn c { (tellPeer N c).conns c with closed := true, used := false }).setSock k
      s = ((closeConn N c).setSock k s).setConn c
        { (closeConn N c).conns c with closed := true } := by
  simp only [closeConn, tellPeer, LoopNet.setSock, LoopNet.setConn]
  cases (N.conns c).peer with
  | none => simp only [update_self, update_idem]
  | some d => simp only [update_self, update_idem]

theorem Links.shutdown (h : Links N) (hi : (N.files i).ops = true) :
    Sheds N (loopShutdown N i).2 (some i) := by
  have hsame : N.connOf i = none → Sheds N N (some i) := fun hnone =>
    ⟨h, .of_eq rfl, fun j => by
      by_cases hj : j = i
      · rw [hj, if_pos rfl, hnone]
      · rw [if_neg fun hn => hj (Option.some.inj hn).symm]⟩
  have hfind := h.sockConn_eq hi
  rw [sockConn] at hfind
  rw [loopShutdown]
  rcases hk : (N.files i).sock with _ | k
  · rw [hk] at hfind
    exact hsame hfind.symm
  rw [hk] at hfind
  dsimp only at hfind ⊢
  split
  · rename_i c hkind hc
    have hku := h.tied.sock_used hi hk
    have hat : N.connAt (.sock k) = some c := (LoopSock.heldConn_eq hku hkind).trans hc
    have hcu := h.conns.isLive hat
    have hfree : ((closeConn N c).conns c).used = false := by
      simp only [closeConn, LoopNet.setConn, update_self]
    generalize hs : ({ N.socks k with conn := none } : LoopSock) = s
    have hsc : s.heldConn = none := by rw [← hs]; exact ite_self _
    have hsl : none = N.sockListen k := (LoopSock.heldListen_of_kind (by rw [hkind]; decide)).symm
    have hsl' : s.heldListen = none := LoopSock.heldListen_of_kind (by rw [← hs, hkind]; decide)
    have ht : ((closeConn N c).setSock k s).Tied False := by
      rw [closeConn_eq]
      refine h.tied.change hku (by rw [← hs]; exact hku) ?_ ?_ (h.peers.closeConn hcu)
      · rw [hsl', update_eq_self_iff.mpr hsl]
        exact h.tied.listens
      · rw [hsc]
        exact owned_closeConn h.tied.conns h.peers hat
    obtain ⟨hf, hss, hls⟩ := closeConn_conns N c
    have hlisten : ((closeConn N c).setSock k s).listens = N.listens := hls
    rw [shutdown_eq]
    refine ⟨h.of_tied (ht.congr (fun _ => .inl rfl) (fun _ => .inl rfl)
      (update_same_or (P := fun x : LoopConn => x.used = false) hfree hfree) rfl) fun l hu => ?_,
      fun c' hu => ?_, fun j => ?_⟩
    · have hu' : ((closeConn N c).listens l).used = true := hu
      rw [hls] at hu'
      exact ⟨hu', congrArg (fun f => (f l).port) hlisten⟩
    · have hu' := (update_dead_iff (P := fun x : LoopConn => x.used = true)
        (by rw [Bool.not_eq_true]; exact hfree) c').mp hu
      have heq : (((closeConn N c).setSock k s).setConn c
          { (closeConn N c).conns c with closed := true }).conns c' = (closeConn N c).conns c' :=
        update_of_ne hu'.2 ..
      rw [heq]
      exact shrinks_closeConn h.peers hcu c' hu'.1
    · refine (h.connOf_setSock ((if_pos hi).trans hk) s ?_ ?_ j).trans ?_
      · exact hf
      · exact congrArg (update · k s) hss
      · exact if_congr (by rw [Option.some_inj, eq_comm]) hsc rfl
  · rename_i hno
    refine hsame (hfind.symm.trans ?_)
    split_ifs with hkind
    · rcases hc : (N.socks k).conn with _ | c
      · rfl
      · exact absurd hc (hno c hkind)
    · rfl

end Release

/-! ## Calls that pass endpoints on -/

section Pass

variable {N : LoopNet}

theorem Links.accept (h : Links N) (hi : (N.files i).ops = true) (fd : Bool) :
    ((loopAccept N i fd).1 = none ∧ Sheds N (loopAccept N i fd).2 none) ∨
      ∃ j, (loopAccept N i fd).1 = some j ∧ Links (loopAccept N i fd).2 ∧
        (loopAccept N i fd).2.conns = N.conns ∧
        ∀ j', j' ≠ j → (loopAccept N i fd).2.connOf j' = N.connOf j' := by
  rw [loopAccept]
  rcases hl : acceptFrom N i with v | l
  · exact .inl ⟨rfl, .of_links h rfl fun _ => rfl⟩
  have hlu := (h.tied.acceptFrom_eq_ok hi hl).1
  have hkept : ∀ l', ((popPending N l).2.listens l').used = true → (N.listens l').used = true ∧
      ((popPending N l).2.listens l').port = (N.listens l').port :=
    (Function.forall_update_iff N.listens fun l x => x.used = true →
      (N.listens l).used = true ∧ x.port = (N.listens l).port).mpr
      ⟨fun hu => ⟨hu, rfl⟩, fun _ _ hu => ⟨hu, rfl⟩⟩
  -- an endpoint that has left the queue and gets no socket is lost
  have hP : Links (popPending N l).2 := by
    refine h.of_tied ⟨h.tied.socks, h.tied.listens.congr rfl
      (update_same_iff (P := fun x : LoopListen => x.used = true) Iff.rfl), ?_, h.peers⟩ hkept
    rw [connAt_popPending]
    exact h.tied.conns.lose
  have hshed : Sheds N (popPending N l).2 none := .of_links hP rfl fun _ => rfl
  have hmade := loopAcceptFile_cases N l
  have haccept := fun j k => h.tied.accept (j := j) (k := k) hlu
  dsimp only
  generalize loopAcceptFile N l = r at hmade
  cases hmade with
  | failed => exact .inl ⟨rfl, hshed⟩
  | noFile k hk =>
    exact .inl ⟨rfl, hshed.trans (hP.spare (fun _ => .inl rfl)
      (update_same_or (P := fun s : LoopSock => s.used = false) rfl hk) rfl rfl)⟩
  | noSock i' hi' =>
    exact .inl ⟨rfl, hshed.trans (hP.spare
      (update_same_or (P := fun f : SockFile => f.ops = false) rfl hi') (fun _ => .inl rfl) rfl rfl)⟩
  | made j k hj hk =>
    dsimp only
    split_ifs with hfd
    · refine .inr ⟨j, rfl, h.of_tied (haccept j k hj hk) hkept, rfl, fun j' hj' => ?_⟩
      rw [hP.connOf_newFile j hk, if_neg hj', (hshed.connOf j').trans (if_neg nofun)]
    · rw [loopUndo_eq]
      exact .inl ⟨rfl, hshed.trans (hP.spare
        (update_same_or (P := fun f : SockFile => f.ops = false) rfl hj)
        (update_same_or (P := fun s : LoopSock => s.used = false) rfl hk) rfl rfl)⟩

/-! ### Connecting -/

/-- What `loop_connect` does with the pools. -/
inductive Connecting (S : StreamNet) (i : ℕ) (addr : SockAddr) : ℤ × StreamNet → Prop
  | refused (v : ℤ) (hv : v ≠ 0) : Connecting S i addr (v, S)
  /-- One endpoint was taken and given back. -/
  | full (c : ℕ) (x : LoopConn) (r : RBuf) (hc : (S.net.conns c).used = false)
      (hx : x.used = false) :
      Connecting S i addr (-12, ⟨S.net.setConn c x, update S.rbuf c r⟩)
  | made (k l c d : ℕ) (rc rd : RBuf) (hk : (S.net.files i).sock = some k)
      (hkind : (S.net.socks k).kind = .fresh) (hl : (S.net.listens l).used = true)
      (hroom : (S.net.listens l).pending.count < loopBacklog)
      (hc : (S.net.conns c).used = false) (hd : (S.net.conns d).used = false) (hne : d ≠ c)
      (hrc : rc.toList = []) (hrd : rd.toList = []) :
      Connecting S i addr (0,
        ⟨(LoopNet.setListen
          { S.net with
            conns := update (update S.net.conns c ⟨true, false, 0, some d⟩) d
              ⟨true, false, addr.port, some c⟩ } l
          { S.net.listens l with
            pending := (S.net.listens l).pending.enqueue (some d) }).setSock k
          { S.net.socks k with kind := .connected, conn := some c },
        update (update S.rbuf c rc) d rd⟩)

theorem connect_cases (S : StreamNet) (i : ℕ) (addr : SockAddr) :
    Connecting S i addr (S.connect i addr) := by
  have hmade := loopConnect_cases S.net i addr
  rw [StreamNet.connect]
  generalize loopConnect S.net i addr = r at hmade
  cases hmade with
  | refused v h0 h12 =>
    dsimp only
    rw [if_neg (not_or.mpr ⟨h0, h12⟩)]
    exact .refused v h0
  | none hclient =>
    have hrbuf : S.connAlloc.2.connAlloc.2.rbuf = S.rbuf := by
      simp only [StreamNet.connAlloc, hclient]
    dsimp only
    rw [if_pos (.inr rfl), hrbuf]
    exact .refused (-12) (by decide)
  | full c hc hclient hserver =>
    have hrbuf : S.connAlloc.2.connAlloc.2.rbuf =
        update S.rbuf c (.empty (S.rbuf c).slots loopBufSize_pos) := by
      simp only [StreamNet.connAlloc, hclient, hserver]
    dsimp only
    rw [if_pos (.inr rfl), hrbuf]
    exact .full c _ _ hc rfl
  | made k l c d hk hkind hl hroom hc hd hne hclient hserver =>
    have hrbuf : S.connAlloc.2.connAlloc.2.rbuf = update
        (update S.rbuf c (.empty (S.rbuf c).slots loopBufSize_pos)) d
        (.empty (update S.rbuf c (.empty (S.rbuf c).slots loopBufSize_pos) d).slots
          loopBufSize_pos) := by
      simp only [StreamNet.connAlloc, hclient, hserver]
    dsimp only
    rw [if_pos (.inl rfl), hrbuf]
    exact .made k l c d _ _ hk hkind hl hroom hc hd hne rfl rfl

theorem Links.connect (h : Links N) {l d : ℕ} (port : ℕ) (hi : (N.files i).ops = true)
    (hk : (N.files i).sock = some k) (hkind : (N.socks k).kind = .fresh)
    (hl : (N.listens l).used = true) (hroom : (N.listens l).pending.count < loopBacklog)
    (hc : (N.conns c).used = false) (hd : (N.conns d).used = false) (hne : d ≠ c) :
    Links (N.joined k l c d port) ∧
      ∀ j, (N.joined k l c d port).connOf j = if j = i then some c else N.connOf j := by
  have hku := h.tied.sock_used hi hk
  refine ⟨h.of_tied (h.tied.connect hku hkind hl hroom False.elim hc hd hne port) ?_, fun j => ?_⟩
  · exact (Function.forall_update_iff N.listens fun l x => x.used = true →
      (N.listens l).used = true ∧ x.port = (N.listens l).port).mpr
      ⟨fun hu => ⟨hu, rfl⟩, fun _ _ hu => ⟨hu, rfl⟩⟩
  · refine (h.connOf_setSock ((if_pos hi).trans hk)
      { N.socks k with kind := .connected, conn := some c } ?_ ?_ j).trans ?_
    · rfl
    · rfl
    · exact if_congr Iff.rfl (if_pos ⟨hku, rfl⟩) rfl

end Pass

/-! ## What is sent arrives -/

/-- **Every descriptor has the endpoint of its end, and every endpoint in use has received what the
other end has sent**, but for what is still in its ring. -/
structure Traffic.Inv (T : Traffic) : Prop where
  links : Links T.kern.net
  stream : ∀ c, (T.kern.net.conns c).used = true →
    T.got (T.endAt c) ++ (T.kern.rbuf c).toList = T.sent (otherEnd (T.endAt c))
  inj : ∀ c c', (T.kern.net.conns c).used = true → (T.kern.net.conns c').used = true →
    T.endAt c = T.endAt c' → c = c'
  made : ∀ c, (T.kern.net.conns c).used = true → (T.endAt c).1 < T.made
  peer : ∀ c d, (T.kern.net.conns c).used = true → (T.kern.net.conns c).peer = some d →
    T.endAt d = otherEnd (T.endAt c)
  role : ∀ i, T.role i = (T.kern.net.connOf i).map T.endAt
  unmade : ∀ e : End, T.made ≤ e.1 → T.sent e = [] ∧ T.got e = []

theorem note_of_ne {log : End → List Byte} {o : Option End} {bytes : List Byte}
    (h : o ≠ some e) : note log o bytes e = log e := by
  rcases o with _ | e'
  · rfl
  · exact update_of_ne (fun he => h (congrArg some he.symm)) ..

theorem note_self (log : End → List Byte) (e : End) (bytes : List Byte) :
    note log (some e) bytes e = log e ++ bytes :=
  update_self ..

section Keep

variable {T : Traffic}

theorem Links.connOf_used {N : LoopNet} (h : Links N) (hc : N.connOf i = some c) :
    (N.conns c).used = true := by
  obtain ⟨k, -, hk⟩ := Option.bind_eq_some_iff.mp hc
  exact h.conns.isLive (i := .sock k) hk

theorem Traffic.Inv.role_eq_some (h : T.Inv) (hr : T.role i = some e) :
    ∃ c, T.kern.net.connOf i = some c ∧ (T.kern.net.conns c).used = true ∧ T.endAt c = e := by
  rw [h.role i] at hr
  obtain ⟨c, hc, he⟩ := Option.map_eq_some_iff.mp hr
  exact ⟨c, hc, h.links.connOf_used hc, he⟩

theorem Traffic.Inv.role_lt (h : T.Inv) (hr : T.role i = some e) : e.1 < T.made := by
  obtain ⟨c, -, hcu, he⟩ := h.role_eq_some hr
  exact he ▸ h.made c hcu

theorem Traffic.Inv.sheds (h : T.Inv) {N' : LoopNet} {off : Option ℕ} (hs : Sheds T.kern.net N' off)
    {role : ℕ → Option End} (hrole : ∀ j, role j = if off = some j then none else T.role j) :
    Traffic.Inv { T with kern := ⟨N', T.kern.rbuf⟩, role := role } where
  links := hs.links
  stream := fun c hc => h.stream c (hs.shrinks c hc).1
  inj := fun c c' hc hc' => h.inj c c' (hs.shrinks c hc).1 (hs.shrinks c' hc').1
  made := fun c hc => h.made c (hs.shrinks c hc).1
  peer := fun c d hc hd => h.peer c d (hs.shrinks c hc).1 ((hs.shrinks c hc).2 d hd)
  role := fun j => by
    dsimp only
    rw [hrole, hs.connOf, h.role]
    split_ifs
    · rfl
    · rfl
  unmade := h.unmade

theorem Traffic.Inv.accept (h : T.Inv) (hi : (T.kern.net.files i).ops = true) (fd : Bool) :
    (T.call (.accept i fd)).Inv := by
  simp only [Traffic.call]
  rcases h.links.accept hi fd with ⟨hnone, hs⟩ | ⟨j, hj, hlinks, hconns, hconnOf⟩
  · rw [hnone]
    exact h.sheds hs fun j => (if_neg nofun).symm
  · rw [hj]
    have hshr : Shrinks T.kern.net (loopAccept T.kern.net i fd).2 := .of_eq hconns
    refine ⟨hlinks, fun c hc => h.stream c (hshr c hc).1,
      fun c c' hc hc' => h.inj c c' (hshr c hc).1 (hshr c' hc').1,
      fun c hc => h.made c (hshr c hc).1,
      fun c d hc hd => h.peer c d (hshr c hc).1 ((hshr c hc).2 d hd), fun j' => ?_, h.unmade⟩
    by_cases hjj : j' = j
    · rw [hjj]
      exact update_self ..
    · refine (update_of_ne hjj ..).trans ?_
      rw [h.role]
      exact congrArg (Option.map T.endAt) (hconnOf j' hjj).symm

theorem Traffic.Inv.send (h : T.Inv) (hi : (T.kern.net.files i).ops = true)
    (src : List Byte) : (T.call (.send i src)).Inv := by
  simp only [Traffic.call, StreamNet.send]
  have hrole := h.role i
  have hsame : note T.sent (T.role i) (src.take 0) = T.sent := by
    funext e
    by_cases he : T.role i = some e
    · rw [he, note_self, List.take_zero, List.append_nil]
    · exact note_of_ne he
  rw [h.links.sockConn_eq hi]
  rcases hc : T.kern.net.connOf i with _ | c
  · dsimp only
    rw [hsame]
    exact h
  have hcu := h.links.connOf_used hc
  dsimp only
  split_ifs with hclosed
  · rw [hsame]
    exact h
  rcases hd : (T.kern.net.conns c).peer with _ | d
  · dsimp only
    rw [hsame]
    exact h
  dsimp only
  split_ifs with hclosed'
  · rw [hsame]
    exact h
  obtain ⟨-, hdu, -⟩ := h.links.peers.sym c d hcu hd
  rw [hc] at hrole
  have hend : otherEnd (T.endAt d) = T.endAt c := by rw [h.peer c d hcu hd, otherEnd_otherEnd]
  have hput := sendLoop_eq src.length (T.kern.rbuf d) le_rfl
  generalize sendLoop src.length (T.kern.rbuf d) src = r at hput
  refine ⟨h.links, fun c' hc' => ?_, h.inj, h.made, h.peer, h.role, fun e he => ?_⟩
  · dsimp only
    by_cases hcd : c' = d
    · rw [hcd, update_self, hput, ← List.append_assoc, h.stream d hdu, hend, hrole]
      exact (note_self ..).symm
    · -- another ring, so another end has sent what is in it
      rw [update_of_ne hcd, note_of_ne, h.stream c' hc']
      intro he
      rw [hrole] at he
      have heq : T.endAt c = otherEnd (T.endAt c') := Option.some.inj he
      refine hcd (h.inj c' d hc' hdu ?_)
      rw [h.peer c d hcu hd, heq, otherEnd_otherEnd]
  · refine ⟨?_, (h.unmade e he).2⟩
    exact (note_of_ne fun hr => Nat.not_lt.mpr he (h.role_lt hr)).trans (h.unmade e he).1

theorem Traffic.Inv.recv (h : T.Inv) (hi : (T.kern.net.files i).ops = true) (size : ℕ) :
    (T.call (.recv i size)).Inv := by
  simp only [Traffic.call, StreamNet.recv]
  have hrole := h.role i
  rw [h.links.sockConn_eq hi]
  rcases hc : T.kern.net.connOf i with _ | c
  · rw [hc] at hrole
    dsimp only
    rw [hrole]
    exact h
  have hcu := h.links.connOf_used hc
  rw [hc] at hrole
  obtain ⟨hbytes, hrest⟩ := recvLoop_eq size (T.kern.rbuf c) le_rfl
  dsimp only
  generalize recvLoop size (T.kern.rbuf c) size = r at hbytes hrest
  refine ⟨h.links, fun c' hc' => ?_, h.inj, h.made, h.peer, h.role, fun e he => ?_⟩
  · dsimp only
    by_cases hcc : c' = c
    · rw [hcc, update_self, hrole]
      have hnote : note T.got (some (T.endAt c)) r.1 (T.endAt c) = T.got (T.endAt c) ++ r.1 :=
        note_self ..
      refine (congrArg (· ++ r.2.toList) hnote).trans ?_
      rw [List.append_assoc, hbytes, hrest, List.take_append_drop, h.stream c hcu]
    · rw [update_of_ne hcc, note_of_ne, h.stream c' hc']
      intro he
      rw [hrole] at he
      exact hcc (h.inj c' c hc' hcu (Option.some.inj he).symm)
  · refine ⟨(h.unmade e he).1, ?_⟩
    exact (note_of_ne fun hr => Nat.not_lt.mpr he (h.role_lt hr)).trans (h.unmade e he).2

/-- **A new connection** of descriptor `i`, with the slots `c` and `d`, which were free. -/
structure Traffic.Connected (T T' : Traffic) (i c d port : ℕ) : Prop where
  links : Links T'.kern.net
  conns : T'.kern.net.conns = update (update T.kern.net.conns c
    ⟨true, false, 0, some d⟩) d ⟨true, false, port, some c⟩
  connOf : ∀ j, T'.kern.net.connOf j = if j = i then some c else T.kern.net.connOf j
  free_c : (T.kern.net.conns c).used = false
  free_d : (T.kern.net.conns d).used = false
  ne : d ≠ c
  made : T'.made = T.made + 1
  endAt : T'.endAt = update (update T.endAt c (T.made, .client)) d
    (T.made, .server)
  role : T'.role = update T.role i (some (T.made, .client))
  sent : T'.sent = T.sent
  got : T'.got = T.got
  ring_c : (T'.kern.rbuf c).toList = []
  ring_d : (T'.kern.rbuf d).toList = []
  ring : ∀ a, a ≠ c → a ≠ d → T'.kern.rbuf a = T.kern.rbuf a

theorem Traffic.Inv.connect_cases (h : T.Inv) (hi : (T.kern.net.files i).ops = true)
    (addr : SockAddr) :
    ((T.kern.connect i addr).1 ≠ 0 ∧ (T.call (.connect i addr)).Inv) ∨
      ∃ c d, T.Connected (T.call (.connect i addr)) i c d addr.port := by
  simp only [Traffic.call]
  have hcases := Fs.connect_cases T.kern i addr
  generalize T.kern.connect i addr = r at hcases
  cases hcases with
  | refused v hv =>
    rw [if_neg hv]
    exact .inl ⟨hv, h⟩
  | full c x r hc hx =>
    have hold : ∀ {a}, ((T.kern.net.setConn c x).conns a).used = true →
        a ≠ c ∧ (T.kern.net.setConn c x).conns a = T.kern.net.conns a := by
      intro a ha
      have hac : a ≠ c := by
        rintro rfl
        simp only [LoopNet.setConn, update_self] at ha
        exact Bool.false_ne_true (hx.symm.trans ha)
      exact ⟨hac, update_of_ne hac ..⟩
    have hfailed : (-12 : ℤ) ≠ 0 := by decide
    refine .inl ⟨hfailed, ?_⟩
    rw [if_neg hfailed]
    have ht : (T.kern.net.setConn c x).Tied False := h.links.tied.congr (fun _ => .inl rfl)
      (fun _ => .inl rfl) (update_same_or (P := fun x : LoopConn => x.used = false) hx hc) rfl
    refine ⟨h.links.of_tied ht fun _ hu => ⟨hu, rfl⟩, fun a ha => ?_, fun a b ha hb => ?_, fun a ha => ?_,
      fun a b ha hb => ?_, h.role, h.unmade⟩
    · have hring : update T.kern.rbuf c r a = T.kern.rbuf a :=
        update_of_ne (hold ha).1 ..
      have hu := (congrArg LoopConn.used (hold ha).2).symm.trans ha
      exact (congrArg (fun q : RBuf => T.got (T.endAt a) ++ q.toList) hring).trans (h.stream a hu)
    · exact h.inj a b ((congrArg LoopConn.used (hold ha).2).symm.trans ha)
        ((congrArg LoopConn.used (hold hb).2).symm.trans hb)
    · exact h.made a ((congrArg LoopConn.used (hold ha).2).symm.trans ha)
    · exact h.peer a b ((congrArg LoopConn.used (hold ha).2).symm.trans ha)
        ((congrArg LoopConn.peer (hold ha).2).symm.trans hb)
  | made k l c d rc rd hk hkind hl hroom hc hd hne hrc hrd =>
    obtain ⟨hlinks, hconnOf⟩ := h.links.connect addr.port hi hk hkind hl hroom hc hd hne
    rw [if_pos rfl]
    dsimp only
    rw [← LoopNet.joined]
    generalize hN : T.kern.net.joined k l c d addr.port = N' at hlinks hconnOf
    have hconns : N'.conns = update (update T.kern.net.conns c
        ⟨true, false, 0, some d⟩) d ⟨true, false, addr.port, some c⟩ := by rw [← hN]; rfl
    have hpeer : (N'.conns c).peer = some d := by
      rw [hconns, update_of_ne hne.symm, update_self]
    have hself : N'.connOf i = some c := (hconnOf i).trans (if_pos rfl)
    refine .inr ⟨c, d, ?_⟩
    rw [Traffic.connected]
    dsimp only
    rw [hself]
    dsimp only
    rw [hpeer]
    exact
      { links := hlinks
        conns := hconns
        connOf := hconnOf
        free_c := hc
        free_d := hd
        ne := hne
        made := rfl
        endAt := rfl
        role := rfl
        sent := rfl
        got := rfl
        ring_c := by
          dsimp only
          rw [update_of_ne hne.symm, update_self, hrc]
        ring_d := by
          dsimp only
          rw [update_self, hrd]
        ring := fun a hac had => by
          dsimp only
          rw [update_of_ne had, update_of_ne hac] }

theorem Traffic.Inv.connected (h : T.Inv) {T' : Traffic} {d port : ℕ}
    (hT : T.Connected T' i c d port) : T'.Inv := by
  have hne := hT.ne
  have hconn_c : T'.kern.net.conns c = ⟨true, false, 0, some d⟩ := by
    rw [hT.conns, update_of_ne hne.symm, update_self]
  have hconn_d : T'.kern.net.conns d = ⟨true, false, port, some c⟩ := by
    rw [hT.conns, update_self]
  have hend_c : T'.endAt c = (T.made, .client) := by
    rw [hT.endAt, update_of_ne hne.symm, update_self]
  have hend_d : T'.endAt d = (T.made, .server) := by rw [hT.endAt, update_self]
  have hold : ∀ {a}, a ≠ c → a ≠ d → T'.kern.net.conns a = T.kern.net.conns a ∧
      T'.endAt a = T.endAt a := fun hac had => by
    rw [hT.conns, hT.endAt, update_of_ne had, update_of_ne hac,
      update_of_ne had, update_of_ne hac]
    exact ⟨rfl, rfl⟩
  -- what was in use is neither of the two
  have hused : ∀ {a}, (T.kern.net.conns a).used = true → a ≠ c ∧ a ≠ d := fun ha =>
    ⟨fun hac => Bool.false_ne_true (hT.free_c.symm.trans (hac ▸ ha)),
      fun had => Bool.false_ne_true (hT.free_d.symm.trans (had ▸ ha))⟩
  -- the new ends have the number of the new connection, the others a smaller one
  have hcases : ∀ a, (T'.kern.net.conns a).used = true →
      (a = c ∧ T'.endAt a = (T.made, .client)) ∨ (a = d ∧ T'.endAt a = (T.made, .server)) ∨
      (a ≠ c ∧ a ≠ d ∧ (T.kern.net.conns a).used = true ∧ T'.endAt a = T.endAt a ∧
        (T.endAt a).1 < T.made) := by
    intro a ha
    by_cases hac : a = c
    · exact .inl ⟨hac, hac ▸ hend_c⟩
    · by_cases had : a = d
      · exact .inr (.inl ⟨had, had ▸ hend_d⟩)
      · have hau : (T.kern.net.conns a).used = true := (hold hac had).1 ▸ ha
        exact .inr (.inr ⟨hac, had, hau, (hold hac had).2, h.made a hau⟩)
  refine ⟨hT.links, fun a ha => ?_, fun a b ha hb hab => ?_, fun a ha => ?_, fun a b ha hb => ?_,
    fun j => ?_, fun e he => ?_⟩
  · rw [hT.sent, hT.got]
    rcases hcases a ha with ⟨rfl, hae⟩ | ⟨rfl, hae⟩ | ⟨hac, had, hau, hae, -⟩
    · rw [hT.ring_c, hae, (h.unmade _ le_rfl).2]
      exact (h.unmade (T.made, .server) le_rfl).1.symm
    · rw [hT.ring_d, hae, (h.unmade _ le_rfl).2]
      exact (h.unmade (T.made, .client) le_rfl).1.symm
    · rw [hT.ring a hac had, hae, h.stream a hau]
  · rcases hcases a ha with ⟨hac, hae⟩ | ⟨had, hae⟩ | ⟨-, -, hau, hae, hal⟩ <;>
      rcases hcases b hb with ⟨hbc, hbe⟩ | ⟨hbd, hbe⟩ | ⟨-, -, hbu, hbe, hbl⟩ <;>
      rw [hae, hbe] at hab
    · exact hac.trans hbc.symm
    · cases hab
    · exact absurd hbl (hab ▸ Nat.lt_irrefl _)
    · cases hab
    · exact had.trans hbd.symm
    · exact absurd hbl (hab ▸ Nat.lt_irrefl _)
    · exact absurd hal (hab ▸ Nat.lt_irrefl _)
    · exact absurd hal (hab ▸ Nat.lt_irrefl _)
    · exact h.inj a b hau hbu hab
  · rw [hT.made]
    rcases hcases a ha with ⟨-, hae⟩ | ⟨-, hae⟩ | ⟨-, -, -, hae, hal⟩ <;> rw [hae]
    · exact Nat.lt_succ_self _
    · exact Nat.lt_succ_self _
    · exact hal.trans (Nat.lt_succ_self _)
  · rcases hcases a ha with ⟨rfl, hae⟩ | ⟨rfl, hae⟩ | ⟨hac, had, hau, hae, -⟩
    · rw [hconn_c] at hb
      rw [← Option.some.inj hb, hae, hend_d]
      rfl
    · rw [hconn_d] at hb
      rw [← Option.some.inj hb, hend_c, hae]
      rfl
    · rw [(hold hac had).1] at hb
      have hbu := hused (h.links.peers.sym a b hau hb).2.1
      rw [hae, (hold hbu.1 hbu.2).2]
      exact h.peer a b hau hb
  · rw [hT.role, hT.connOf]
    by_cases hj : j = i
    · rw [hj, update_self, if_pos rfl, Option.map_some, hend_c]
    · rw [update_of_ne hj, if_neg hj, h.role]
      rcases ha : T.kern.net.connOf j with _ | a
      · rfl
      · have hau := hused (h.links.connOf_used ha)
        rw [Option.map_some, Option.map_some, (hold hau.1 hau.2).2]
  · rw [hT.sent, hT.got]
    exact h.unmade e (by rw [hT.made] at he; omega)

theorem Traffic.Inv.call (h : T.Inv) (e : SockCall)
    (hopen : ∀ i, e.file = some i → (T.kern.net.files i).ops = true) : (T.call e).Inv := by
  have hoff : ∀ i j, update T.role i none j =
      if some i = some j then none else T.role j := by
    intro i j
    rw [update_apply]
    exact if_congr (by rw [Option.some_inj, eq_comm]) rfl rfl
  cases e with
  | socket domain type fd =>
    exact h.sheds (h.links.socket domain type fd) fun j => (if_neg nofun).symm
  | bind i addr => exact h.sheds (h.links.bind (hopen i rfl) addr) fun j => (if_neg nofun).symm
  | listen i => exact h.sheds (h.links.listen i) fun j => (if_neg nofun).symm
  | connect i addr =>
    rcases h.connect_cases (hopen i rfl) addr with ⟨-, hinv⟩ | ⟨c, d, hT⟩
    · exact hinv
    · exact h.connected hT
  | accept i fd => exact h.accept (hopen i rfl) fd
  | send i src => exact h.send (hopen i rfl) src
  | recv i size => exact h.recv (hopen i rfl) size
  | shutdown i => exact h.sheds (h.links.shutdown (hopen i rfl)) (hoff i)
  | close i => exact h.sheds (h.links.close (hopen i rfl)) (hoff i)

theorem Traffic.Inv.step (h : T.Inv) {e : SockCall} {T' : Traffic} (hstep : T.step e = some T') :
    T'.Inv := by
  rw [Traffic.step] at hstep
  have hopen : (∀ i, e.file = some i → (T.kern.net.files i).ops = true) ∧ T.call e = T' := by
    rcases hf : e.file with _ | i
    · rw [hf] at hstep
      exact ⟨nofun, Option.some.inj hstep⟩
    · rw [hf] at hstep
      dsimp only at hstep
      split_ifs at hstep with hi
      refine ⟨fun j hj => ?_, Option.some.inj hstep⟩
      obtain rfl : i = j := Option.some.inj hj
      exact hi
  exact hopen.2 ▸ h.call e hopen.1

theorem Traffic.boot_inv : Traffic.boot.Inv where
  links :=
    { socks := ⟨nofun, nofun⟩
      listens := ⟨nofun, nofun⟩
      conns := by
        have hnone : ∀ p, Traffic.boot.kern.net.connAt p = none := fun p => by
          cases p with
          | sock k => rfl
          | pending l j => rfl
        have hempty : ∀ {p c} {P : Prop}, Traffic.boot.kern.net.connAt p = some c → P :=
          fun hp => absurd ((hnone _).symm.trans hp) nofun
        exact ⟨hempty, fun hp _ => hempty hp⟩
      peers := ⟨nofun, nofun⟩
      listens_lt := nofun
      ports := nofun }
  stream := nofun
  inj := nofun
  made := nofun
  peer := nofun
  role := fun _ => rfl
  unmade := fun _ _ => ⟨rfl, rfl⟩

end Keep

/-! ## The streams -/

/-- The connection that `connect` makes carries nothing over: its two slots were free, both rings
are empty and both ends have sent and received nothing; its number is new; of the descriptors, only
the caller refers to one of the slots. -/
structure Traffic.StartsAnew (T T' : Traffic) (i port : ℕ) (c d : ℕ) : Prop where
  free : (T.kern.net.conns c).used = false ∧ (T.kern.net.conns d).used = false ∧ d ≠ c
  conn_c : T'.kern.net.conns c = ⟨true, false, 0, some d⟩
  conn_d : T'.kern.net.conns d = ⟨true, false, port, some c⟩
  rings : (T'.kern.rbuf c).toList = [] ∧ (T'.kern.rbuf d).toList = []
  ends : T'.endAt c = (T.made, .client) ∧ T'.endAt d = (T.made, .server)
  number : ∀ a, (T.kern.net.conns a).used = true → (T.endAt a).1 < T.made
  silent : ∀ side, T'.sent (T.made, side) = [] ∧ T'.got (T.made, side) = []
  holder_c : ∀ j, T'.kern.net.connOf j = some c ↔ j = i
  holder_d : ∀ j, T'.kern.net.connOf j ≠ some d

/-- **What loopback sockets promise.** -/
structure Traffic.Faithful (T : Traffic) : Prop where
  /-- The two endpoints of a connection refer to each other. -/
  peers : ∀ c d, (T.kern.net.conns c).used = true → (T.kern.net.conns c).peer = some d →
    (T.kern.net.conns d).used = true ∧ (T.kern.net.conns d).peer = some c
  /-- A port has one listener. -/
  ports : ∀ l l', (T.kern.net.listens l).used = true → (T.kern.net.listens l').used = true →
    (T.kern.net.listens l).port = (T.kern.net.listens l').port → l = l'
  /-- The endpoint that a call on a descriptor works on is the one of the descriptor's end, -/
  role : ∀ i, (T.kern.net.files i).ops = true →
    (sockConn T.kern.net i).map T.endAt = T.role i
  /-- which no other descriptor is. -/
  role_inj : ∀ i j e, T.role i = some e → T.role j = some e → i = j
  /-- What an end has received and what is in its ring is what the other end has sent. -/
  stream : ∀ c, (T.kern.net.conns c).used = true →
    T.got (T.endAt c) ++ (T.kern.rbuf c).toList = T.sent (otherEnd (T.endAt c))
  /-- A `recv` that returns nothing comes after all that was sent. -/
  eof : ∀ i e size, (T.kern.net.files i).ops = true → T.role i = some e → 1 ≤ size →
    (T.kern.recv i size).1 = [] → T.got e = T.sent (otherEnd e)
  /-- An endpoint that is used again begins empty. -/
  anew : ∀ i addr, (T.kern.net.files i).ops = true → (T.kern.connect i addr).1 = 0 →
    ∃ c d, T.StartsAnew (T.call (.connect i addr)) i addr.port c d

section Promise

variable {T : Traffic}

theorem Traffic.Inv.eof (h : T.Inv) {size : ℕ} (hi : (T.kern.net.files i).ops = true)
    (hr : T.role i = some e) (hsize : 1 ≤ size) (hnil : (T.kern.recv i size).1 = []) :
    T.got e = T.sent (otherEnd e) := by
  obtain ⟨c, hc, hcu, rfl⟩ := h.role_eq_some hr
  rw [StreamNet.recv, h.links.sockConn_eq hi, hc] at hnil
  have htake : (T.kern.rbuf c).toList.take size = [] :=
    (recvLoop_eq size (T.kern.rbuf c) le_rfl).1.symm.trans hnil
  have hring : (T.kern.rbuf c).toList = [] := by
    refine (List.take_eq_nil_iff.mp htake).resolve_left ?_
    omega
  have hstream := h.stream c hcu
  rwa [hring, List.append_nil] at hstream

theorem Traffic.Inv.anew (h : T.Inv) {T' : Traffic} {d port : ℕ}
    (hT : T.Connected T' i c d port) : T.StartsAnew T' i port c d := by
  have hne := hT.ne
  have hnot : ∀ {j a}, (T.kern.net.conns a).used = false → T.kern.net.connOf j ≠ some a :=
    fun ha hj => Bool.false_ne_true (ha.symm.trans (h.links.connOf_used hj))
  refine
    { free := ⟨hT.free_c, hT.free_d, hne⟩
      conn_c := ?_
      conn_d := ?_
      rings := ⟨hT.ring_c, hT.ring_d⟩
      ends := ⟨?_, ?_⟩
      number := h.made
      silent := fun side => ?_
      holder_c := fun j => ?_
      holder_d := fun j => ?_ }
  · rw [hT.conns, update_of_ne hne.symm, update_self]
  · rw [hT.conns, update_self]
  · rw [hT.endAt, update_of_ne hne.symm, update_self]
  · rw [hT.endAt, update_self]
  · rw [hT.sent, hT.got]
    exact h.unmade (T.made, side) le_rfl
  · rw [hT.connOf]
    split_ifs with hj
    · exact iff_of_true rfl hj
    · exact iff_of_false (hnot hT.free_c) hj
  · rw [hT.connOf]
    split_ifs with hj
    · exact fun he => hne (Option.some.inj he).symm
    · exact hnot hT.free_d

theorem Traffic.Inv.faithful (h : T.Inv) : T.Faithful where
  peers := fun c d hc hd => (h.links.peers.sym c d hc hd).2
  ports := h.links.ports
  role := fun i hi => by rw [h.links.sockConn_eq hi, h.role]
  role_inj := fun i j e hri hrj => by
    obtain ⟨c, hc, hcu, hce⟩ := h.role_eq_some hri
    obtain ⟨c', hc', hcu', hce'⟩ := h.role_eq_some hrj
    obtain rfl := h.inj c c' hcu hcu' (hce.trans hce'.symm)
    -- one endpoint is behind one socket, and that behind one file object
    obtain ⟨k, hk, hkc⟩ := Option.bind_eq_some_iff.mp hc
    obtain ⟨k', hk', hkc'⟩ := Option.bind_eq_some_iff.mp hc'
    have hkk : ConnPlace.sock k = .sock k' := h.links.conns.unique hkc hkc'
    rw [← ConnPlace.sock.inj hkk] at hk'
    exact h.links.socks.unique hk hk'
  stream := h.stream
  eof := fun i e size hi hr hsize hnil => h.eof hi hr hsize hnil
  anew := fun i addr hi h0 => by
    rcases h.connect_cases hi addr with ⟨hne, -⟩ | ⟨c, d, hT⟩
    · exact absurd h0 hne
    · exact ⟨c, d, h.anew hT⟩

end Promise

/-- **Whatever calls are made on loopback sockets, in whatever order**, every state that is reached
keeps the promise. -/
theorem loopback_streams_faithful {events : List SockCall} {T : Traffic}
    (hrun : Run Traffic.step (fun _ _ => True) Traffic.boot events T) : T.Faithful :=
  (hrun.invariant (I := Traffic.Inv) (fun _ _ _ h _ hstep => h.step hstep)
    Traffic.boot_inv).faithful

def localEighty : SockAddr := ⟨afInet, 80, true⟩

/-- A server and a client; the client sends three bytes, the server receives two of them and closes,
and the slots of the connection are used again. -/
def talk : List SockCall :=
  [.socket 2 1 true, .bind 0 localEighty, .listen 0, .socket 2 1 true, .connect 1 localEighty,
    .accept 0 true, .send 1 [7, 8, 9], .recv 2 2, .close 2, .shutdown 1, .socket 2 1 true,
    .connect 2 localEighty, .accept 0 true, .send 3 [5], .recv 2 4]

theorem loopback_streams_faithful_talk : ∃ T,
    Run Traffic.step (fun _ _ => True) Traffic.boot talk T ∧ T.Faithful ∧
      T.sent (0, .client) = [7, 8, 9] ∧ T.got (0, .server) = [7, 8] ∧ T.got (1, .client) = [5] := by
  have hex : ∃ T, Run Traffic.step (fun _ _ => True) Traffic.boot talk T ∧
      (T.sent (0, .client) = [7, 8, 9] ∧ T.got (0, .server) = [7, 8] ∧ T.got (1, .client) = [5]) :=
    exists_run (by decide +kernel)
  obtain ⟨T, hrun, hT⟩ := hex
  exact ⟨T, hrun, loopback_streams_faithful hrun, hT⟩

end BananaOS.Fs
