import BananaOS.Net.Ip

/-!
# Echo

`icmp_input` answers an echo request with the same message, under another type and with a new
checksum.  The answer goes through `ip_send`, so two checksums have to come out right, and both do
for one reason: a word that was 0 has been filled in with the complement of the sum.
-/

namespace BananaOS.Net

open Bytes

def icmpHdrLen : ℕ := 8
def icmpTypeEchoReply : ℕ := 0
def icmpTypeEchoRequest : ℕ := 8

/-- The reply in `buf`, before its checksum is filled in. -/
def echoNoSum (pkt : Bytes) (len : ℕ) : Bytes :=
  wr16 (wr8 (copyIn zero 0 len pkt) 0 icmpTypeEchoReply) 2 0

def echo (pkt : Bytes) (len : ℕ) : Bytes :=
  wr16 (echoNoSum pkt len) 2 (ipChecksum (echoNoSum pkt len) len)

/-- `icmp_input`: what is handed to `eth_output`, as the address, the frame and its length. -/
def icmpInput (dev : Option NetDevice) (ipId : ℕ) (pkt : Bytes) (len srcIp : ℕ) :
    Option (ℕ × Bytes × ℕ) :=
  if len < icmpHdrLen then none
  else if (pkt 0).toNat = icmpTypeEchoRequest then
    if mtu < len then none
    else (ipSend dev ipId srcIp ipProtoIcmp (echo pkt len) len).map fun f => (srcIp, f)
  else none

/-- `ip_input`, as far as it sends; `udp_input` does not. -/
def ipInputReply (dev : Option NetDevice) (ipId : ℕ) (pkt : Bytes) (len : ℕ) :
    Option (ℕ × Bytes × ℕ) :=
  match ipDeliver dev pkt len with
  | none => none
  | some p =>
    if p.proto = ipProtoIcmp then icmpInput dev ipId p.payload p.len p.src else none

/-- The packet is accepted, and is an echo request that fits in a packet. -/
structure EchoRequest (dev : NetDevice) (pkt : Bytes) (len : ℕ) (p : IpPacket) : Prop where
  accepted : ipDeliver (some dev) pkt len = some p
  proto : p.proto = ipProtoIcmp
  type : (p.payload 0).toNat = icmpTypeEchoRequest
  le : icmpHdrLen ≤ p.len
  fits : p.len ≤ 1480

/-- The frame handed to `eth_output` answers the request. -/
structure EchoReply (p : IpPacket) (dstIp : ℕ) (frame : Bytes) (len : ℕ) : Prop where
  addressed : dstIp = p.src
  len : len = ethHdrLen + ipHdrLen + p.len
  dst : netHtonl (rd32 (drop frame ethHdrLen) 16) = p.src
  ipSum : ipChecksum (drop frame ethHdrLen) ipHdrLen = 0
  icmpSum : ipChecksum (drop frame (ethHdrLen + ipHdrLen)) p.len = 0
  type : (frame (ethHdrLen + ipHdrLen)).toNat = icmpTypeEchoReply
  rest : ∀ k < p.len, k ≠ 0 → k ≠ 2 → k ≠ 3 → frame (ethHdrLen + ipHdrLen + k) = p.payload k

variable {dev : NetDevice} {ipId len : ℕ} {pkt : Bytes} {p : IpPacket}

theorem src_lt_of_ipDeliver (h : ipDeliver (some dev) pkt len = some p) : p.src < 2 ^ 32 := by
  rw [ipDeliver] at h
  dsimp only at h
  split_ifs at h
  rw [← Option.some.inj h]
  exact netHtonl_lt _

theorem echo_type (pkt : Bytes) (len : ℕ) : (echo pkt len 0).toNat = icmpTypeEchoReply := by
  rw [echo, wr16_out (by omega), echoNoSum, wr16_out (by omega), wr8_same]
  rfl

theorem echo_rest {k : ℕ} (hk : k < len) (h₀ : k ≠ 0) (h₂ : k ≠ 2) (h₃ : k ≠ 3) :
    echo pkt len k = pkt k := by
  rw [echo, wr16_out (by omega), echoNoSum, wr16_out (by omega), wr8_ne h₀,
    copyIn_in (Nat.zero_le k) (by omega), Nat.sub_zero]

theorem ipChecksum_echo (hlen : icmpHdrLen ≤ len) (hmax : len ≤ 2 ^ 16) :
    ipChecksum (echo pkt len) len = 0 := by
  refine ipChecksum_filled (j := 1) hmax (lt_of_lt_of_le (by decide) hlen) ?_
  rw [wordAt_eq, echoNoSum, rd16_wr16]
  rfl

theorem ipInputReply_of_request (h : EchoRequest dev pkt len p) :
    ∃ dst frame n, ipInputReply (some dev) ipId pkt len = some (dst, frame, n) ∧
      EchoReply p dst frame n := by
  obtain ⟨hacc, hproto, htype, hle, hfits⟩ := h
  have hmtu : ipHdrLen + p.len ≤ mtu := Nat.add_le_add_left hfits 20
  have hpos : 0 < p.len := lt_of_lt_of_le (by decide) hle
  obtain ⟨frame, hsend, -, -, hhdr, hbody⟩ :=
    ipSend_eq dev ipId p.src ipProtoIcmp (echo p.payload p.len) hmtu
  refine ⟨p.src, frame, _, ?_, rfl, rfl, ?_, ?_, ?_, ?_, fun k hk h₀ h₂ h₃ => ?_⟩
  · rw [ipInputReply, hacc]
    dsimp only
    rw [if_pos hproto, icmpInput, if_neg (not_lt.mpr hle), if_pos htype, if_neg (by omega), hsend]
    rfl
  · rw [rd32_congr fun k hk => (hhdr (16 + k) (by omega)).trans
      (ipHdr_fields _ _ _ _ _ (by omega))]
    exact ipHdrNoSum_dst dev.ip ipId ipProtoIcmp p.len (src_lt_of_ipDeliver hacc)
  · exact (ipChecksum_congr (by decide) hhdr).trans (ipChecksum_ipHdr ..)
  · exact (ipChecksum_congr (by omega) hbody).trans (ipChecksum_echo hle (by omega))
  · exact (congrArg BitVec.toNat (hbody 0 hpos)).trans (echo_type ..)
  · exact (hbody k hk).trans (echo_rest hk h₀ h₂ h₃)

theorem ipInputReply_of_not_request (h : ¬ ∃ p, EchoRequest dev pkt len p) :
    ipInputReply (some dev) ipId pkt len = none := by
  rw [ipInputReply]
  cases hp : ipDeliver (some dev) pkt len with
  | none => rfl
  | some p =>
    dsimp only [icmpInput, ipSend]
    split_ifs with hproto hlen htype hmtu hfit
    · rfl
    · rfl
    · rfl
    · have hle : p.len ≤ 1480 := Nat.le_of_add_le_add_left (not_lt.mp hfit)
      exact absurd ⟨p, hp, hproto, htype, not_lt.mp hlen, hle⟩ h
    · rfl
    · rfl

theorem ipInputReply_none (ipId : ℕ) (pkt : Bytes) (len : ℕ) : ipInputReply none ipId pkt len = none := by
  rw [ipInputReply]
  rcases ipDeliver none pkt len with _ | p
  · rfl
  · dsimp only [icmpInput, ipSend]
    split_ifs <;> rfl

/-- **Ping.**  An echo request is answered with one frame, and nothing else makes `ip_input` send
one. -/
theorem ipInputReply_echo (dev : NetDevice) (ipId : ℕ) (pkt : Bytes) (len : ℕ) :
    (∀ p, EchoRequest dev pkt len p →
      ∃ dst frame n, ipInputReply (some dev) ipId pkt len = some (dst, frame, n) ∧
        EchoReply p dst frame n) ∧
    ((¬ ∃ p, EchoRequest dev pkt len p) → ipInputReply (some dev) ipId pkt len = none) ∧
    ipInputReply none ipId pkt len = none :=
  ⟨fun _ => ipInputReply_of_request, ipInputReply_of_not_request, ipInputReply_none ipId pkt len⟩

/-- A message of nine bytes, from address 1 to address 2. -/
theorem ipInputReply_echo_nine : ∃ dst frame n,
    ipInputReply (some ⟨zero, 2⟩) 0 (copyIn (ipHdr 1 0 2 1 9) 20 9 (wr8 zero 0 8)) 29 =
      some (dst, frame, n) ∧
    EchoReply ⟨1, 1, drop (copyIn (ipHdr 1 0 2 1 9) 20 9 (wr8 zero 0 8)) 20, 9⟩ dst frame n := by
  have hhdr : ∀ k < 20, copyIn (ipHdr 1 0 2 1 9) 20 9 (wr8 zero 0 8) k = ipHdr 1 0 2 1 9 k :=
    fun k hk => copyIn_out (.inl hk)
  have haccepted := ipDeliver_ipHdr hhdr (n := 29) (by decide) (by decide) (by decide) (by decide)
    (by decide) ⟨zero, 2⟩
  rw [if_pos (.inl rfl)] at haccepted
  exact (ipInputReply_echo _ _ _ _).1 _ ⟨haccepted, rfl, rfl, by decide, by decide⟩

end BananaOS.Net
