import BananaOS.Net.Ip
import BananaOS.Fs.Readiness

/-!
# UDP, from one machine to another

A port that is bound has four slots.  Arriving datagrams go into them in turn; when all are taken
the oldest one makes room.  What the application sees of this is a queue of at most four datagrams,
each cut off after 512 bytes: an arrival appends to it and keeps the last four, and `udp_recv` takes
the first.  `Port` is that queue, and the result of the module is that two machines with a wire
between them behave like it (`udp_end_to_end`): one calls `udp_send`, the frames arrive in order and
with whatever padding, and the other calls `udp_recv` in between.
-/

namespace BananaOS.Net

open Function Bytes RingQueue

def udpHdrLen : ℕ := 8
def udpMaxBinds : ℕ := 8
def udpQueueDepth : ℕ := 4
def udpDgramMax : ℕ := 512

structure Slot where
  data : Bytes
  len : ℕ
  fromIp : ℕ
  fromPort : ℕ

structure UdpBind where
  used : Bool
  port : ℕ
  queue : Ring Slot udpQueueDepth

/-- A machine: its network device, and `g_udp`. -/
structure Host where
  dev : NetDevice
  udp : ℕ → UdpBind

def udpFind (udp : ℕ → UdpBind) (port : ℕ) : Option ℕ :=
  (List.range udpMaxBinds).find? fun b => (udp b).used && ((udp b).port == port)

/-- The datagram that `udp_send` makes. -/
def udpDgram (dstPort : ℕ) (data : Bytes) (len : ℕ) : Bytes :=
  let buf := wr16 zero 0 (netHtons dstPort)
  let buf := wr16 buf 2 (netHtons dstPort)
  let buf := wr16 buf 4 (netHtons ((udpHdrLen + len) % 2 ^ 16))
  let buf := wr16 buf 6 0
  copyIn buf udpHdrLen len data

/-- `udp_send`: the frame that goes to `eth_output`, and its length. -/
def udpSend (dev : Option NetDevice) (ipId dstIp dstPort : ℕ) (data : Bytes) (len : ℕ) :
    Option (Bytes × ℕ) :=
  if mtu - ipHdrLen - udpHdrLen < len then none
  else ipSend dev ipId dstIp ipProtoUdp (udpDgram dstPort data len) (udpHdrLen + len)

/-- A datagram goes into the queue of a port; a full queue loses its oldest one.  The slot keeps the
bytes behind the datagram. -/
def Slot.put (q : Ring Slot udpQueueDepth) (data : Bytes) (len fromIp fromPort : ℕ) :
    Ring Slot udpQueueDepth :=
  let q := if udpQueueDepth ≤ q.count then q.dequeue.2 else q
  q.enqueue ⟨copyIn (q.slots q.tail).data 0 len data, len, fromIp, fromPort⟩

def udpInput (udp : ℕ → UdpBind) (pkt : Bytes) (len srcIp : ℕ) : ℕ → UdpBind :=
  if len < udpHdrLen then udp
  else
    let dport := netHtons (rd16 pkt 2)
    let ulen := netHtons (rd16 pkt 4)
    if ulen < udpHdrLen ∨ len < ulen then udp
    else
      let payloadLen := if udpDgramMax < ulen - udpHdrLen then udpDgramMax else ulen - udpHdrLen
      match udpFind udp dport with
      | none => udp
      | some b =>
        update udp b { udp b with
          queue := Slot.put (udp b).queue (drop pkt udpHdrLen) payloadLen srcIp
            (netHtons (rd16 pkt 0)) }

/-- What `udp_recv` gives its caller: the return value, the buffer, and the address and port of the
sender if there was a datagram. -/
structure Received where
  ret : ℤ
  buf : Bytes
  sender : Option (ℕ × ℕ)

def udpRecv (udp : ℕ → UdpBind) (port : ℕ) (buf : Bytes) (max : ℕ) :
    Received × (ℕ → UdpBind) :=
  match udpFind udp port with
  | none => (⟨-1, buf, none⟩, udp)
  | some b =>
    match (udp b).queue.dequeue with
    | (none, _) => (⟨0, buf, none⟩, udp)
    | (some d, q) =>
      let n := if max < d.len then max else d.len
      (⟨n, copyIn buf 0 n d.data, some (d.fromIp, d.fromPort)⟩,
        update udp b { udp b with queue := q })

/-- `ip_input`.  ICMP has no part in the queues. -/
def ipInput (h : Host) (pkt : Bytes) (len : ℕ) : Host :=
  match ipDeliver (some h.dev) pkt len with
  | none => h
  | some p =>
    if p.proto = ipProtoIcmp then h
    else if p.proto = ipProtoUdp then { h with udp := udpInput h.udp p.payload p.len p.src }
    else h

/-- `net_rx`.  ARP has no part in the queues. -/
def netRx (h : Host) (frame : Bytes) (len : ℕ) : Host :=
  if len < ethHdrLen then h
  else
    let type := (frame 12).toNat * 256 + (frame 13).toNat
    if type = ethTypeArp then h
    else if type = ethTypeIp then ipInput h (drop frame ethHdrLen) (len - ethHdrLen)
    else h

/-! ## What an application sees -/

structure Datagram where
  fromIp : ℕ
  fromPort : ℕ
  bytes : List Byte
  deriving DecidableEq

def Slot.toDatagram (d : Slot) : Datagram := ⟨d.fromIp, d.fromPort, (List.range d.len).map d.data⟩

def queueOf (udp : ℕ → UdpBind) (port : ℕ) : Option (List Datagram) :=
  (udpFind udp port).map fun b => (udp b).queue.toList.map Slot.toDatagram

abbrev Queues := ℕ → Option (List Datagram)

/-- **An arrival**: the last at most four. -/
def arrive (q : List Datagram) (d : Datagram) : List Datagram :=
  (q ++ [d]).drop ((q ++ [d]).length - udpQueueDepth)

/-- **What `udp_recv` should do**: the oldest datagram, as much of it as there is room for. -/
def Queues.recv (q : Queues) (port : ℕ) (buf : Bytes) (max : ℕ) : Received × Queues :=
  match q port with
  | none => (⟨-1, buf, none⟩, q)
  | some [] => (⟨0, buf, none⟩, q)
  | some (d :: rest) =>
    let n := min d.bytes.length max
    (⟨n, copyIn buf 0 n fun k => d.bytes.getD k 0, some (d.fromIp, d.fromPort)⟩,
      update q port (some rest))

/-- **What a datagram should do** that arrives for a port: nothing, if it is not bound. -/
def Queues.arrive (q : Queues) (port : ℕ) (d : Datagram) : Queues :=
  update q port ((q port).map fun ds => Net.arrive ds d)

/-! ## The queue of a port -/

section

variable {udp : ℕ → UdpBind} {port b : ℕ}

theorem map_copyIn (p src : Bytes) (n : ℕ) :
    (List.range n).map (copyIn p 0 n src) = (List.range n).map src := by
  refine List.map_congr_left fun k hk => ?_
  rw [copyIn_in (Nat.zero_le k) (by have := List.mem_range.mp hk; omega), Nat.sub_zero]

theorem toList_put (q : Ring Slot udpQueueDepth) (data : Bytes) (len fromIp fromPort : ℕ) :
    (Slot.put q data len fromIp fromPort).toList.map Slot.toDatagram =
      arrive (q.toList.map Slot.toDatagram) ⟨fromIp, fromPort, (List.range len).map data⟩ := by
  have hnew : ∀ p, Slot.toDatagram ⟨copyIn p 0 len data, len, fromIp, fromPort⟩ =
      ⟨fromIp, fromPort, (List.range len).map data⟩ := by
    intro p
    rw [Slot.toDatagram, map_copyIn]
  have hdepth : udpQueueDepth = 4 := rfl
  simp only [Slot.put, arrive, List.length_append, List.length_map, Ring.length_toList,
    List.length_singleton]
  by_cases hfull : udpQueueDepth ≤ q.count
  · -- the oldest one goes first
    obtain ⟨a, r, hdeq, hlist⟩ := q.dequeue_of_pos (by omega)
    have hcount : q.count = r.count + 1 := by
      rw [← q.length_toList, hlist, List.length_cons, r.length_toList]
    have hle := q.count_le
    rw [if_pos hfull, hdeq, Ring.toList_enqueue (by dsimp only; omega), List.map_append,
      List.map_singleton, hnew, hlist, show q.count + 1 - udpQueueDepth = 1 by omega]
    rfl
  · rw [if_neg hfull, Ring.toList_enqueue (by omega), List.map_append, List.map_singleton, hnew,
      show q.count + 1 - udpQueueDepth = 0 by omega, List.drop_zero]

theorem udpFind_eq_some (h : udpFind udp port = some b) : (udp b).port = port := by
  have := List.find?_some h
  simp only [Bool.and_eq_true, beq_iff_eq] at this
  exact this.2

theorem udpFind_update (q : Ring Slot udpQueueDepth) (port : ℕ) :
    udpFind (update udp b { udp b with queue := q }) port = udpFind udp port := by
  refine List.find?_congr fun c _ => ?_
  by_cases hc : c = b
  · rw [hc, update_self]
  · rw [update_of_ne hc]

theorem queueOf_update (h : udpFind udp port = some b) (q : Ring Slot udpQueueDepth) :
    queueOf (update udp b { udp b with queue := q }) =
      update (queueOf udp) port (some (q.toList.map Slot.toDatagram)) := by
  funext p
  rw [queueOf, udpFind_update]
  by_cases hp : p = port
  · rw [hp, update_self, h, Option.map_some, update_self]
  · rw [update_of_ne hp, queueOf]
    rcases hfind : udpFind udp p with _ | c
    · rfl
    · have hc : c ≠ b := fun he => hp (by rw [← udpFind_eq_some hfind, he, udpFind_eq_some h])
      rw [Option.map_some, Option.map_some, update_of_ne hc]

theorem queueOf_of_find (h : udpFind udp port = some b) :
    queueOf udp port = some ((udp b).queue.toList.map Slot.toDatagram) := by
  rw [queueOf, h, Option.map_some]

theorem queueOf_of_none (h : udpFind udp port = none) : queueOf udp port = none := by
  rw [queueOf, h, Option.map_none]

theorem udpRecv_eq (udp : ℕ → UdpBind) (port : ℕ) (buf : Bytes) (max : ℕ) :
    ((udpRecv udp port buf max).1, queueOf (udpRecv udp port buf max).2) =
      Queues.recv (queueOf udp) port buf max := by
  rw [udpRecv, Queues.recv]
  rcases hfind : udpFind udp port with _ | b
  · rw [queueOf_of_none hfind]
  · rw [queueOf_of_find hfind]
    by_cases hempty : (udp b).queue.count = 0
    · have hlist : (udp b).queue.toList = [] := by
        rw [← List.length_eq_zero_iff, Ring.length_toList, hempty]
      have hdeq : (udp b).queue.dequeue = (none, (udp b).queue) := dif_pos hempty
      simp only [hlist, hdeq, List.map_nil]
    · obtain ⟨d, q, hdeq, hlist⟩ := (udp b).queue.dequeue_of_pos (Nat.pos_of_ne_zero hempty)
      simp only [hlist, hdeq, List.map_cons]
      have hlen : d.toDatagram.bytes.length = d.len := by simp [Slot.toDatagram]
      have hn : (if max < d.len then max else d.len) = min d.len max := by
        split_ifs <;> omega
      have hbuf : copyIn buf 0 (min d.len max) d.data =
          copyIn buf 0 (min d.len max) fun k => d.toDatagram.bytes.getD k 0 := by
        funext j
        by_cases hj : j < min d.len max
        · rw [copyIn_in (Nat.zero_le j) (by omega), copyIn_in (Nat.zero_le j) (by omega)]
          rw [List.getD_eq_getElem _ _ (by rw [hlen]; omega)]
          simp only [Slot.toDatagram, List.getElem_map, List.getElem_range]
        · rw [copyIn_out (by omega), copyIn_out (by omega)]
      rw [queueOf_update hfind, hn, hlen, hbuf]
      rfl

def forget (udp : ℕ → UdpBind) (b : ℕ) : Fs.UdpBind :=
  ⟨(udp b).used, (udp b).port, (udp b).queue.toList.map fun d => d.toDatagram.bytes⟩

theorem udpRecv_forget (udp : ℕ → UdpBind) (port : ℕ) (buf : Bytes) (max : ℕ) :
    Fs.udpRecv (forget udp) port max =
      ((udpRecv udp port buf max).1.ret, forget (udpRecv udp port buf max).2) := by
  have hsame : Fs.udpFind (forget udp) port = udpFind udp port := rfl
  rw [Fs.udpRecv, udpRecv, hsame]
  rcases hfind : udpFind udp port with _ | b
  · rfl
  · by_cases hempty : (udp b).queue.count = 0
    · have hlist : (udp b).queue.toList = [] := by
        rw [← List.length_eq_zero_iff, Ring.length_toList, hempty]
      have hdeq : (udp b).queue.dequeue = (none, (udp b).queue) := dif_pos hempty
      simp only [forget, hlist, hdeq, List.map_nil, Nat.cast_zero]
    · obtain ⟨d, q, hdeq, hlist⟩ := (udp b).queue.dequeue_of_pos (Nat.pos_of_ne_zero hempty)
      have hlen : d.toDatagram.bytes.length = d.len := by simp [Slot.toDatagram]
      have hn : min (d.len : ℤ) max = ((if max < d.len then max else d.len : ℕ) : ℤ) := by
        split_ifs <;> omega
      simp only [forget, hlist, hdeq, List.map_cons, hlen, hn]
      refine Prod.ext rfl (funext fun c => ?_)
      by_cases hc : c = b
      · subst hc
        simp only [update_self, forget]
      · simp only [update_of_ne hc, forget]

theorem udpDgram_fields (port : ℕ) (data : Bytes) {len : ℕ} (hlen : len ≤ 1472) :
    rd16 (udpDgram port data len) 0 = netHtons port ∧
      rd16 (udpDgram port data len) 2 = netHtons port ∧
      rd16 (udpDgram port data len) 4 = netHtons (udpHdrLen + len) ∧
      ∀ k < len, udpDgram port data len (udpHdrLen + k) = data k := by
  have hhdr : udpHdrLen = 8 := rfl
  have hport := Nat.mod_eq_of_lt (netHtons_lt port)
  refine ⟨?_, ?_, ?_, fun k hk => ?_⟩ <;> simp only [udpDgram]
  · rw [rd16_copyIn_of_disjoint (by omega), rd16_wr16_of_disjoint (by decide),
      rd16_wr16_of_disjoint (by decide), rd16_wr16_of_disjoint (by decide), rd16_wr16, hport]
  · rw [rd16_copyIn_of_disjoint (by omega), rd16_wr16_of_disjoint (by decide),
      rd16_wr16_of_disjoint (by decide), rd16_wr16, hport]
  · rw [rd16_copyIn_of_disjoint (by omega), rd16_wr16_of_disjoint (by decide), rd16_wr16,
      Nat.mod_eq_of_lt (netHtons_lt _), Nat.mod_eq_of_lt (by omega)]
  · rw [copyIn_in (by omega) (by omega), Nat.add_sub_cancel_left]

theorem udpInput_eq (udp : ℕ → UdpBind) {pkt : Bytes} {len srcIp : ℕ} (data : Bytes)
    (hport : port < 2 ^ 16) (hlen : len ≤ 1472) (hsrc : rd16 pkt 0 = netHtons port)
    (hdst : rd16 pkt 2 = netHtons port) (hulen : rd16 pkt 4 = netHtons (udpHdrLen + len))
    (hdata : ∀ k < len, pkt (udpHdrLen + k) = data k) :
    queueOf (udpInput udp pkt (udpHdrLen + len) srcIp) =
      Queues.arrive (queueOf udp) port
        ⟨srcIp, port, ((List.range len).map data).take udpDgramMax⟩ := by
  have hhdr : udpHdrLen = 8 := rfl
  have hports : netHtons (netHtons port) = port := netHtons_netHtons hport
  have hlens : netHtons (netHtons (udpHdrLen + len)) = udpHdrLen + len :=
    netHtons_netHtons (by omega)
  have hpay : (if udpDgramMax < udpHdrLen + len - udpHdrLen then udpDgramMax
      else udpHdrLen + len - udpHdrLen) = min udpDgramMax len := by
    rw [Nat.add_sub_cancel_left]
    split_ifs <;> omega
  have hbytes : (List.range (min udpDgramMax len)).map (drop pkt udpHdrLen) =
      ((List.range len).map data).take udpDgramMax := by
    rw [← List.map_take, List.take_range]
    exact List.map_congr_left fun k hk => hdata k (by have := List.mem_range.mp hk; omega)
  simp only [udpInput, hdst, hulen, hsrc, hports, hlens, hpay]
  rw [if_neg (by omega), if_neg (by omega), Queues.arrive]
  rcases hfind : udpFind udp port with _ | b
  · rw [queueOf_of_none hfind, Option.map_none, ← queueOf_of_none hfind, update_eq_self]
  · dsimp only
    rw [queueOf_update hfind, queueOf_of_find hfind, Option.map_some, toList_put, hbytes]

end

/-! ## Two machines -/

structure Link where
  sender : NetDevice
  /-- `g_ip_id` of the sender. -/
  ipId : ℕ
  receiver : Host

/-- What happens: the sender sends, and the frame arrives with `padLen` bytes more; or the receiver
calls `udp_recv`. -/
inductive Event where
  | send (dst port : ℕ) (data : Bytes) (len : ℕ) (pad : Bytes) (padLen : ℕ)
  | recv (port : ℕ) (buf : Bytes) (max : ℕ)

/-- One event, with what `udp_recv` gave. -/
def Link.step (l : Link) : Event → Option Received × Link
  | .send dst port data len pad padLen =>
    match udpSend (some l.sender) l.ipId dst port data len with
    | none => (none, l)
    | some (frame, n) =>
      let frame : Bytes := fun j => if j < n then frame j else pad (j - n)
      (none, { l with
        ipId := (l.ipId + 1) % 2 ^ 16
        receiver := netRx l.receiver frame (n + padLen) })
  | .recv port buf max =>
    let r := udpRecv l.receiver.udp port buf max
    (some r.1, { l with receiver := { l.receiver with udp := r.2 } })

def Link.run (l : Link) : List Event → List Received × Link
  | [] => ([], l)
  | e :: es =>
    let r := l.step e
    let rs := r.2.run es
    (r.1.toList ++ rs.1, rs.2)

/-- What an event should do to the queues, between a sender with address `src` and a receiver with
address `addr`. -/
def Queues.step (src addr : ℕ) (q : Queues) : Event → Option Received × Queues
  | .send dst port data len _ _ =>
    if dst = addr ∨ dst = 0xFFFFFFFF then
      (none, Queues.arrive q port ⟨src, port, ((List.range len).map data).take udpDgramMax⟩)
    else (none, q)
  | .recv port buf max => (some (Queues.recv q port buf max).1, (Queues.recv q port buf max).2)

def Queues.run (src addr : ℕ) (q : Queues) : List Event → List Received × Queues
  | [] => ([], q)
  | e :: es =>
    let r := Queues.step src addr q e
    let rs := Queues.run src addr r.2 es
    (r.1.toList ++ rs.1, rs.2)

def Event.Allowed : Event → Prop
  | .send dst port _ len _ _ => dst < 2 ^ 32 ∧ port < 2 ^ 16 ∧ 1 ≤ len ∧ len ≤ 1472
  | .recv port _ max => port < 2 ^ 16 ∧ max < 2 ^ 31

variable {l : Link}

theorem netRx_send (h : Host) {dev : NetDevice} (hip : dev.ip < 2 ^ 32) (ipId : ℕ) {dst port : ℕ}
    (hdst : dst < 2 ^ 32) (hport : port < 2 ^ 16) (data : Bytes) {len : ℕ} (hlen : len ≤ 1472)
    (pad : Bytes) (padLen : ℕ) : ∃ frame n,
      udpSend (some dev) ipId dst port data len = some (frame, n) ∧
      (netRx h (fun j => if j < n then frame j else pad (j - n)) (n + padLen)).dev = h.dev ∧
      queueOf (netRx h (fun j => if j < n then frame j else pad (j - n)) (n + padLen)).udp =
        if dst = h.dev.ip ∨ dst = 0xFFFFFFFF then
          Queues.arrive (queueOf h.udp) port
            ⟨dev.ip, port, ((List.range len).map data).take udpDgramMax⟩
        else queueOf h.udp := by
  have hconst : udpHdrLen = 8 ∧ ipHdrLen = 20 ∧ ethHdrLen = 14 ∧ mtu = 1500 := ⟨rfl, rfl, rfl, rfl⟩
  have hfits : ipHdrLen + (udpHdrLen + len) ≤ mtu := by omega
  obtain ⟨frame, hsend, htype0, htype1, hhdr, hpay⟩ :=
    ipSend_eq dev ipId dst ipProtoUdp (udpDgram port data len) hfits
  refine ⟨frame, ethHdrLen + ipHdrLen + (udpHdrLen + len), ?_, ?_⟩
  · rw [udpSend, if_neg (by omega)]
    exact hsend
  -- the frame with its padding, header by header
  generalize hn : ethHdrLen + ipHdrLen + (udpHdrLen + len) = n
  obtain ⟨rx, hrx⟩ : ∃ rx : Bytes, rx = fun j => if j < n then frame j else pad (j - n) := ⟨_, rfl⟩
  rw [← hrx]
  have hin : ∀ j < n, rx j = frame j := fun j hj => by rw [hrx]; exact if_pos hj
  have hip20 : ∀ k < 20, drop rx ethHdrLen k =
      ipHdr dev.ip ipId dst ipProtoUdp (udpHdrLen + len) k :=
    fun k hk => (hin (ethHdrLen + k) (by omega)).trans (hhdr k hk)
  have hdgram : ∀ k < udpHdrLen + len, drop (drop rx ethHdrLen) ipHdrLen k =
      udpDgram port data len k := by
    intro k hk
    show rx (ethHdrLen + (ipHdrLen + k)) = _
    rw [← Nat.add_assoc, hin _ (by omega)]
    exact hpay k hk
  have htype : (rx 12).toNat * 256 + (rx 13).toNat = ethTypeIp := by
    rw [hin 12 (by omega), hin 13 (by omega), htype0, htype1]
    rfl
  have hnet : netRx h rx (n + padLen) =
      ipInput h (drop rx ethHdrLen) (n + padLen - ethHdrLen) := by
    rw [netRx, if_neg (by omega), htype, if_neg (by decide), if_pos rfl]
  have hdeliver := ipDeliver_ipHdr hip20 (n := n + padLen - ethHdrLen) (by omega) hfits hip hdst
    (by decide) h.dev
  rw [hnet, ipInput, hdeliver]
  obtain ⟨hsrc, hto, hulen, hdata⟩ := udpDgram_fields port data hlen
  have hword : ∀ o < 6, rd16 (drop (drop rx ethHdrLen) ipHdrLen) o =
      rd16 (udpDgram port data len) o :=
    fun o ho => rd16_congr fun k hk => hdgram (o + k) (by omega)
  by_cases hours : dst = h.dev.ip ∨ dst = 0xFFFFFFFF
  · rw [if_pos hours, if_pos hours]
    dsimp only
    rw [if_neg (by decide), if_pos rfl]
    exact ⟨rfl, udpInput_eq h.udp data hport hlen ((hword 0 (by decide)).trans hsrc)
      ((hword 2 (by decide)).trans hto) ((hword 4 (by decide)).trans hulen)
      fun k hk => (hdgram _ (by omega)).trans (hdata k hk)⟩
  · rw [if_neg hours, if_neg hours]
    exact ⟨rfl, rfl⟩

theorem Link.step_eq (hip : l.sender.ip < 2 ^ 32) {e : Event} (he : e.Allowed) :
    (l.step e).2.sender = l.sender ∧ (l.step e).2.receiver.dev = l.receiver.dev ∧
      ((l.step e).1, queueOf (l.step e).2.receiver.udp) =
        Queues.step l.sender.ip l.receiver.dev.ip (queueOf l.receiver.udp) e := by
  cases e with
  | send dst port data len pad padLen =>
    obtain ⟨hdst, hport, -, hlen⟩ := he
    obtain ⟨frame, n, hsend, hdev, hqueue⟩ :=
      netRx_send l.receiver hip l.ipId hdst hport data hlen pad padLen
    simp only [Link.step, hsend, Queues.step]
    refine ⟨trivial, hdev, ?_⟩
    rw [hqueue]
    split_ifs <;> rfl
  | recv port buf max =>
    have hrecv := udpRecv_eq l.receiver.udp port buf max
    refine ⟨rfl, rfl, ?_⟩
    simp only [Link.step, Queues.step, ← hrecv]

/-- **UDP over IP, end to end.**  Whatever is sent and received, the queues of the receiver are at
every moment what they should be, and so is everything that `udp_recv` gave. -/
theorem udp_end_to_end (l : Link) (hip : l.sender.ip < 2 ^ 32) (events : List Event)
    (hevents : ∀ e ∈ events, e.Allowed) :
    ((l.run events).1, queueOf (l.run events).2.receiver.udp) =
      Queues.run l.sender.ip l.receiver.dev.ip (queueOf l.receiver.udp) events := by
  induction events generalizing l with
  | nil => rfl
  | cons e es ih =>
    obtain ⟨hsender, hdev, hstep⟩ := l.step_eq hip (hevents e List.mem_cons_self)
    have hrest := ih (l.step e).2 (by rwa [hsender]) fun e' he' =>
      hevents e' (List.mem_cons_of_mem e he')
    rw [hsender, hdev] at hrest
    simp only [Link.run, Queues.run]
    rw [← hstep, ← hrest]

theorem udpQueueDepth_pos : 0 < udpQueueDepth := by decide

def sampleLink : Link where
  sender := ⟨zero, 0x0A000202⟩
  ipId := 1
  receiver := ⟨⟨zero, 0x0A00020F⟩, fun b =>
    ⟨b == 0, 7, Ring.empty (fun _ => ⟨zero, 0, 0, 0⟩) udpQueueDepth_pos⟩⟩

/-- Five datagrams of one byte, one for another machine, and one `udp_recv`. -/
def sampleEvents : List Event :=
  ([1, 2, 3, 4, 5].map fun k => .send 0x0A00020F 7 (fun _ => BitVec.ofNat 8 k) 1 zero 17) ++
    [.send 0x0A000203 7 zero 1 zero 17, .recv 7 zero 100]

/-- The first datagram is lost, the second one is received, and three are left. -/
theorem udp_end_to_end_sample :
    (queueOf (sampleLink.run sampleEvents).2.receiver.udp 7).map (List.map Datagram.bytes) =
      some [[3], [4], [5]] ∧
    (sampleLink.run sampleEvents).1.map Received.ret = [1] := by
  have hrun := udp_end_to_end sampleLink (by decide) sampleEvents (by
    intro e he
    simp only [sampleEvents, List.map_cons, List.map_nil, List.cons_append, List.nil_append,
      List.mem_cons, List.not_mem_nil, or_false] at he
    rcases he with rfl | rfl | rfl | rfl | rfl | rfl | rfl <;> simp [Event.Allowed])
  obtain ⟨hret, hqueue⟩ := Prod.mk.inj hrun
  rw [hqueue, hret]
  exact ⟨rfl, rfl⟩

end BananaOS.Net
