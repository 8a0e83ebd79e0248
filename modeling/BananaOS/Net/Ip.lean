import BananaOS.Lib.Bytes
import BananaOS.Lib.OnesComplement

/-!
# IPv4

`ip_send` writes an Ethernet and an IP header in front of a payload; `ip_input` takes them off
again, on another machine.  Both sides work on the bytes of the frame.  What the receiver does with
a packet that it accepts is a matter of the protocols above, so `ip_input` is modelled here up to
that point: `ipDeliver` says which payload is handed on, or that the packet is dropped.
-/

namespace BananaOS.Net

open Bytes Function OnesComplement

def ethAlen : ℕ := 6
def ethHdrLen : ℕ := 14
def mtu : ℕ := 1500
def ipHdrLen : ℕ := 20
def ethTypeIp : ℕ := 0x0800
def ethTypeArp : ℕ := 0x0806
def ipProtoIcmp : ℕ := 1
def ipProtoUdp : ℕ := 17

def netHtons (v : ℕ) : ℕ := v % 256 * 256 + v / 256 % 256

def netHtonl (v : ℕ) : ℕ := netHtons v * 65536 + netHtons (v / 65536)

def wordAt (p : Bytes) (o : ℕ) : ℕ := (p o).toNat * 256 + (p (o + 1)).toNat

/-- The sum in `ip_checksum`, a `uint32_t`. -/
def wordSum (p : Bytes) (len : ℕ) : ℕ :=
  let sum := (List.range (len / 2)).foldl (fun sum i => (sum + wordAt p (2 * i)) % 2 ^ 32) 0
  if len % 2 = 1 then (sum + (p (len - 1)).toNat * 256) % 2 ^ 32 else sum

def ipChecksum (p : Bytes) (len : ℕ) : ℕ :=
  netHtons ((2 ^ 32 - 1 - fold (wordSum p len)) % 2 ^ 16)

/-- The header that `ip_send` writes, without the checksum. -/
def ipHdrNoSum (src id dst proto len : ℕ) : Bytes :=
  let ih := wr8 zero 0 0x45
  let ih := wr8 ih 1 0
  let ih := wr16 ih 2 (netHtons ((ipHdrLen + len) % 2 ^ 16))
  let ih := wr16 ih 4 (netHtons id)
  let ih := wr16 ih 6 0
  let ih := wr8 ih 8 64
  let ih := wr8 ih 9 proto
  let ih := wr32 ih 12 (netHtonl src)
  let ih := wr32 ih 16 (netHtonl dst)
  wr16 ih 10 0

def ipHdr (src id dst proto len : ℕ) : Bytes :=
  let ih := ipHdrNoSum src id dst proto len
  wr16 ih 10 (ipChecksum ih ipHdrLen)

structure NetDevice where
  mac : Bytes
  ip : ℕ

/-- `ip_send`, with `g_ip_id`: the frame that goes to `eth_output`, and its length. -/
def ipSend (dev : Option NetDevice) (ipId dst proto : ℕ) (payload : Bytes) (len : ℕ) :
    Option (Bytes × ℕ) :=
  match dev with
  | none => none
  | some dev =>
    if mtu < ipHdrLen + len then none
    else
      let frame := copyIn zero ethAlen ethAlen dev.mac
      let frame := wr16 frame 12 (netHtons ethTypeIp)
      let frame := copyIn frame ethHdrLen ipHdrLen (ipHdr dev.ip ipId dst proto len)
      let frame := copyIn frame (ethHdrLen + ipHdrLen) len payload
      some (frame, ethHdrLen + ipHdrLen + len)

structure IpPacket where
  proto : ℕ
  src : ℕ
  payload : Bytes
  len : ℕ

/-- `ip_input` up to where the protocols part; `none` if the packet is dropped. -/
def ipDeliver (dev : Option NetDevice) (pkt : Bytes) (len : ℕ) : Option IpPacket :=
  if len < ipHdrLen then none
  else if (pkt 0).toNat / 16 ≠ 4 then none
  else
    let ihl := (pkt 0).toNat % 16 * 4
    if ihl < ipHdrLen ∨ len < ihl then none
    else
      let total := netHtons (rd16 pkt 2)
      if total < ihl ∨ len < total then none
      else
        let frag := netHtons (rd16 pkt 6)
        if frag / 2 ^ 13 % 2 = 1 ∨ frag % 2 ^ 13 ≠ 0 then none
        else if ipChecksum pkt ihl ≠ 0 then none
        else
          let dst := netHtonl (rd32 pkt 16)
          if ∃ d ∈ dev, dst ≠ d.ip ∧ dst ≠ 0xFFFFFFFF then none
          else some ⟨(pkt 9).toNat, netHtonl (rd32 pkt 12), drop pkt ihl, total - ihl⟩

/-! ## Words in network order -/

variable {len : ℕ} {p : Bytes}

theorem netHtons_lt (v : ℕ) : netHtons v < 2 ^ 16 := by
  rw [netHtons]
  omega

theorem netHtons_bytes {a b : ℕ} (ha : a < 256) (hb : b < 256) :
    netHtons (a * 256 + b) = b * 256 + a := by
  rw [netHtons]
  omega

theorem netHtons_netHtons {v : ℕ} (h : v < 2 ^ 16) : netHtons (netHtons v) = v := by
  have hv : netHtons v = v % 256 * 256 + v / 256 := by
    rw [netHtons]
    omega
  rw [hv, netHtons_bytes (Nat.mod_lt _ (by decide)) (by omega)]
  omega

theorem netHtonl_lt (v : ℕ) : netHtonl v < 2 ^ 32 := by
  have h0 := netHtons_lt v
  have h1 := netHtons_lt (v / 65536)
  rw [netHtonl]
  omega

theorem netHtonl_netHtonl {v : ℕ} (h : v < 2 ^ 32) : netHtonl (netHtonl v) = v := by
  -- only the low half of a number counts
  have hlow : ∀ x y, netHtons (x * 65536 + y) = netHtons y := by
    intro x y
    rw [netHtons, netHtons]
    omega
  have hlt := netHtons_lt (v / 65536)
  have hhigh : (netHtons v * 65536 + netHtons (v / 65536)) / 65536 = netHtons v := by omega
  have hv : netHtons v = netHtons (v % 65536) := by
    rw [netHtons, netHtons]
    omega
  rw [netHtonl, netHtonl, hlow, hhigh, netHtons_netHtons (by omega), hv,
    netHtons_netHtons (by omega)]
  omega

theorem wordAt_eq (p : Bytes) (o : ℕ) : wordAt p o = netHtons (rd16 p o) := by
  have h0 := (p o).isLt
  have h1 := (p (o + 1)).isLt
  rw [wordAt, netHtons, rd16]
  omega

theorem wordAt_lt (p : Bytes) (o : ℕ) : wordAt p o < 2 ^ 16 := by
  rw [wordAt_eq]
  exact netHtons_lt _

/-- The sum does not go over 32 bits. -/
theorem wordSum_eq (p : Bytes) (hlen : len ≤ 2 ^ 16) : wordSum p len =
    ∑ i ∈ Finset.range (len / 2), wordAt p (2 * i) +
      if len % 2 = 1 then (p (len - 1)).toNat * 256 else 0 := by
  have hsum : ∀ n ≤ 2 ^ 15, ∑ i ∈ Finset.range n, wordAt p (2 * i) ≤ n * 2 ^ 16 ∧
      (List.range n).foldl (fun sum i => (sum + wordAt p (2 * i)) % 2 ^ 32) 0 =
        ∑ i ∈ Finset.range n, wordAt p (2 * i) := by
    intro n
    induction n with
    | zero => exact fun _ => ⟨le_rfl, rfl⟩
    | succ n ih =>
      intro hn
      obtain ⟨hle, hfold⟩ := ih (by omega)
      have hlt := wordAt_lt p (2 * n)
      rw [Finset.sum_range_succ, List.range_succ, List.foldl_append, hfold, List.foldl_cons,
        List.foldl_nil]
      exact ⟨by omega, Nat.mod_eq_of_lt (by omega)⟩
  obtain ⟨hle, hfold⟩ := hsum (len / 2) (by omega)
  have hlast := (p (len - 1)).isLt
  rw [wordSum, hfold]
  split_ifs
  · exact Nat.mod_eq_of_lt (by omega)
  · rfl

theorem wordSum_congr {q : Bytes} (hlen : len ≤ 2 ^ 16) (h : ∀ k < len, p k = q k) :
    wordSum p len = wordSum q len := by
  rw [wordSum_eq p hlen, wordSum_eq q hlen]
  refine congrArg₂ (· + ·) ?_ ?_
  · refine Finset.sum_congr rfl fun i hi => ?_
    have hi := Finset.mem_range.mp hi
    rw [wordAt, wordAt, h _ (by omega), h _ (by omega)]
  · split_ifs with hodd
    · rw [h _ (by omega)]
    · rfl

/-- A word that was zero is written. -/
theorem wordSum_wr16 {j v : ℕ} (hlen : len ≤ 2 ^ 16) (hj : 2 * j + 1 < len)
    (hzero : wordAt p (2 * j) = 0) :
    wordSum (wr16 p (2 * j) v) len = wordSum p len + netHtons (v % 2 ^ 16) := by
  have hword : ∀ i, wordAt (wr16 p (2 * j) v) (2 * i) =
      wordAt p (2 * i) + if i = j then netHtons (v % 2 ^ 16) else 0 := by
    intro i
    split_ifs with hi
    · rw [hi, hzero, Nat.zero_add, wordAt_eq, rd16_wr16]
    · rw [Nat.add_zero, wordAt, wordAt, wr16_out (by omega), wr16_out (by omega)]
  rw [wordSum_eq _ hlen, wordSum_eq _ hlen, Finset.sum_congr rfl fun i _ => hword i,
    Finset.sum_add_distrib, Finset.sum_ite_eq' _ j, if_pos (Finset.mem_range.mpr (by omega))]
  split_ifs with hodd
  · rw [wr16_out (by omega)]
    omega
  · omega

theorem ipChecksum_eq (p : Bytes) (len : ℕ) :
    ipChecksum p len = netHtons (65535 - fold (wordSum p len)) := by
  have := fold_lt (wordSum p len)
  rw [ipChecksum]
  congr 1
  omega

theorem ipChecksum_congr {q : Bytes} (hlen : len ≤ 2 ^ 16) (h : ∀ k < len, p k = q k) :
    ipChecksum p len = ipChecksum q len := by
  rw [ipChecksum, ipChecksum, wordSum_congr hlen h]

/-- **A checksum that has been filled in verifies.** -/
theorem ipChecksum_filled {j : ℕ} (hlen : len ≤ 2 ^ 16) (hj : 2 * j + 1 < len)
    (hzero : wordAt p (2 * j) = 0) :
    ipChecksum (wr16 p (2 * j) (ipChecksum p len)) len = 0 := by
  have hlt := fold_lt (wordSum p len)
  have hsum : ipChecksum p len % 2 ^ 16 = netHtons (65535 - fold (wordSum p len)) := by
    rw [ipChecksum_eq, Nat.mod_eq_of_lt (netHtons_lt _)]
  rw [ipChecksum_eq, wordSum_wr16 hlen hj hzero, hsum, netHtons_netHtons (by omega), fold_add_compl]
  rfl

/-! ## The header -/

section

variable {src id dst proto len : ℕ}

theorem ipHdr_fields (src id dst proto len : ℕ) {o : ℕ} (ho : o < 10 ∨ 12 ≤ o) :
    ipHdr src id dst proto len o = ipHdrNoSum src id dst proto len o := by
  rw [ipHdr]
  exact wr16_out (by omega)

theorem ipHdrNoSum_version (src id dst proto len : ℕ) :
    ipHdrNoSum src id dst proto len 0 = 0x45#8 := by
  simp [ipHdrNoSum, wr8, wr16, wr32, byteOf]

theorem ipHdrNoSum_proto (src id dst len : ℕ) {proto : ℕ} (h : proto < 256) :
    (ipHdrNoSum src id dst proto len 9).toNat = proto := by
  simp [ipHdrNoSum, wr8, wr16, wr32, byteOf, Nat.mod_eq_of_lt h]

theorem ipHdrNoSum_total (src id dst proto : ℕ) (h : ipHdrLen + len < 2 ^ 16) :
    netHtons (rd16 (ipHdrNoSum src id dst proto len) 2) = ipHdrLen + len := by
  have hword : rd16 (ipHdrNoSum src id dst proto len) 2 = netHtons (ipHdrLen + len) := by
    simp only [ipHdrNoSum]
    rw [rd16_wr16_of_disjoint (by decide), rd16_wr32_of_disjoint (by decide),
      rd16_wr32_of_disjoint (by decide), rd16_wr8_of_disjoint (by decide),
      rd16_wr8_of_disjoint (by decide), rd16_wr16_of_disjoint (by decide),
      rd16_wr16_of_disjoint (by decide), rd16_wr16, Nat.mod_eq_of_lt (netHtons_lt _),
      Nat.mod_eq_of_lt h]
  rw [hword, netHtons_netHtons h]

theorem ipHdrNoSum_frag (src id dst proto len : ℕ) :
    rd16 (ipHdrNoSum src id dst proto len) 6 = 0 := by
  simp only [ipHdrNoSum]
  rw [rd16_wr16_of_disjoint (by decide), rd16_wr32_of_disjoint (by decide),
    rd16_wr32_of_disjoint (by decide), rd16_wr8_of_disjoint (by decide),
    rd16_wr8_of_disjoint (by decide), rd16_wr16, Nat.zero_mod]

theorem ipHdrNoSum_src (id dst proto len : ℕ) {src : ℕ} (h : src < 2 ^ 32) :
    netHtonl (rd32 (ipHdrNoSum src id dst proto len) 12) = src := by
  simp only [ipHdrNoSum]
  rw [rd32_wr16_of_disjoint (by decide), rd32_wr32_of_disjoint (by decide), rd32_wr32,
    Nat.mod_eq_of_lt (netHtonl_lt _), netHtonl_netHtonl h]

theorem ipHdrNoSum_dst (src id proto len : ℕ) {dst : ℕ} (h : dst < 2 ^ 32) :
    netHtonl (rd32 (ipHdrNoSum src id dst proto len) 16) = dst := by
  simp only [ipHdrNoSum]
  rw [rd32_wr16_of_disjoint (by decide), rd32_wr32, Nat.mod_eq_of_lt (netHtonl_lt _),
    netHtonl_netHtonl h]

theorem ipChecksum_ipHdr (src id dst proto len : ℕ) :
    ipChecksum (ipHdr src id dst proto len) ipHdrLen = 0 := by
  refine ipChecksum_filled (j := 5) (by decide) (by decide) ?_
  rw [wordAt_eq, ipHdrNoSum, rd16_wr16]
  rfl

/-! ## From one machine to another -/

theorem ipDeliver_ipHdr {pkt : Bytes} {n : ℕ}
    (hpkt : ∀ k < 20, pkt k = ipHdr src id dst proto len k) (hlen : ipHdrLen + len ≤ n)
    (hmtu : ipHdrLen + len ≤ mtu) (hsrc : src < 2 ^ 32) (hdst : dst < 2 ^ 32)
    (hproto : proto < 256) (dev : NetDevice) :
    ipDeliver (some dev) pkt n =
      if dst = dev.ip ∨ dst = 0xFFFFFFFF then some ⟨proto, src, drop pkt ipHdrLen, len⟩
      else none := by
  have hsmall : ipHdrLen + len < 2 ^ 16 := lt_of_le_of_lt hmtu (by decide)
  have hfield : ∀ k < 20, k < 10 ∨ 12 ≤ k → pkt k = ipHdrNoSum src id dst proto len k :=
    fun k hk ho => (hpkt k hk).trans (ipHdr_fields _ _ _ _ _ ho)
  have hversion : (pkt 0).toNat = 0x45 := by
    rw [hfield 0 (by decide) (by decide), ipHdrNoSum_version]
    rfl
  have htotal : netHtons (rd16 pkt 2) = ipHdrLen + len := by
    rw [rd16_congr fun k hk => hfield (2 + k) (by omega) (by omega)]
    exact ipHdrNoSum_total src id dst proto hsmall
  have hfrag : netHtons (rd16 pkt 6) = 0 := by
    rw [rd16_congr fun k hk => hfield (6 + k) (by omega) (by omega), ipHdrNoSum_frag]
    rfl
  have hsum : ipChecksum pkt ipHdrLen = 0 :=
    (ipChecksum_congr (by decide) hpkt).trans (ipChecksum_ipHdr ..)
  have hto : netHtonl (rd32 pkt 16) = dst := by
    rw [rd32_congr fun k hk => hfield (16 + k) (by omega) (by omega)]
    exact ipHdrNoSum_dst src id proto len hdst
  have hfrom : netHtonl (rd32 pkt 12) = src := by
    rw [rd32_congr fun k hk => hfield (12 + k) (by omega) (by omega)]
    exact ipHdrNoSum_src id dst proto len hsrc
  have hkind : (pkt 9).toNat = proto := by
    rw [hfield 9 (by decide) (by decide)]
    exact ipHdrNoSum_proto src id dst len hproto
  have hihl : (0x45 % 16 * 4 : ℕ) = ipHdrLen := rfl
  rw [ipDeliver, if_neg (by omega), hversion, if_neg (by decide), hihl, if_neg (by omega), htotal,
    if_neg (by omega), hfrag, if_neg (by decide), hsum, if_neg (by decide), hto, hfrom, hkind,
    Nat.add_sub_cancel_left]
  by_cases hours : dst = dev.ip ∨ dst = 0xFFFFFFFF
  · have hkeep : ¬ ∃ d ∈ some dev, dst ≠ d.ip ∧ dst ≠ 0xFFFFFFFF := by
      rintro ⟨d, ⟨⟩, hip, hall⟩
      exact hours.elim hip hall
    rw [if_pos hours, if_neg hkeep]
  · rw [if_neg hours, if_pos ⟨dev, rfl, not_or.mp hours⟩]

theorem ipSend_eq (dev : NetDevice) (id dst proto : ℕ) (payload : Bytes)
    (hmtu : ipHdrLen + len ≤ mtu) : ∃ frame,
    ipSend (some dev) id dst proto payload len = some (frame, ethHdrLen + ipHdrLen + len) ∧
      frame 12 = 0x08#8 ∧ frame 13 = 0x00#8 ∧
      (∀ k < 20, frame (ethHdrLen + k) = ipHdr dev.ip id dst proto len k) ∧
      ∀ k < len, frame (ethHdrLen + ipHdrLen + k) = payload k := by
  refine ⟨_, if_neg (by omega), ?_, ?_, fun k hk => ?_, fun k hk => ?_⟩
  · simp [copyIn, wr16, ethHdrLen, ipHdrLen, byteOf, netHtons, ethTypeIp]
  · simp [copyIn, wr16, ethHdrLen, ipHdrLen, byteOf, netHtons, ethTypeIp]
  · have hlen : ipHdrLen = 20 := rfl
    rw [copyIn_out (by omega), copyIn_in (by omega) (by omega), Nat.add_sub_cancel_left]
  · rw [copyIn_in (by omega) (by omega), Nat.add_sub_cancel_left]

end

/-! ## A damaged header -/

theorem wordSum_update_ne {k : ℕ} {b : Byte} (hlen : len ≤ 2 ^ 16) (heven : len % 2 = 0)
    (hk : k < len) (hb : b ≠ p k) : wordSum (update p k b) len % 65535 ≠ wordSum p len % 65535 := by
  -- the sums differ in one word, and there in one of the two halves
  have hsum : ∀ q : Bytes, wordSum q len = wordAt q (2 * (k / 2)) +
      ∑ i ∈ (Finset.range (len / 2)).erase (k / 2), wordAt q (2 * i) := by
    intro q
    rw [wordSum_eq q hlen, if_neg (by omega), Nat.add_zero,
      Finset.add_sum_erase _ (wordAt q <| 2 * ·) (Finset.mem_range.mpr (by omega))]
  have hrest : ∀ i ∈ (Finset.range (len / 2)).erase (k / 2),
      wordAt (update p k b) (2 * i) = wordAt p (2 * i) := by
    intro i hi
    have hne := Finset.ne_of_mem_erase hi
    rw [wordAt, wordAt, update_of_ne (by omega), update_of_ne (by omega)]
  have hne : b.toNat ≠ (p k).toNat := fun hbk => hb (BitVec.eq_of_toNat_eq hbk)
  have hlt := b.isLt
  have hlt' := (p k).isLt
  rw [hsum, hsum, Finset.sum_congr rfl hrest, wordAt, wordAt]
  rcases Nat.mod_two_eq_zero_or_one k with hpar | hpar
  · rw [show 2 * (k / 2) = k by omega, update_self, update_of_ne (by omega)]
    omega
  · rw [show 2 * (k / 2) + 1 = k by omega, update_self, update_of_ne (by omega)]
    omega

/-- **One damaged byte of the header is always noticed**, unless it is the one that holds the length
of the header: what `ip_input` accepts, it drops when any other byte has changed. -/
theorem ipDeliver_damaged {dev : Option NetDevice} {pkt : Bytes} {n k : ℕ} {b : Byte}
    (h : ipDeliver dev pkt n ≠ none) (hk0 : k ≠ 0) (hk : k < (pkt 0).toNat % 16 * 4)
    (hb : b ≠ pkt k) : ipDeliver dev (update pkt k b) n = none := by
  have hsum : ∀ {q}, q 0 = pkt 0 → ipDeliver dev q n ≠ none →
      wordSum q ((pkt 0).toNat % 16 * 4) % 65535 = 0 := by
    intro q h0 hq
    have hzero : ipChecksum q ((pkt 0).toNat % 16 * 4) = 0 := by
      by_contra hne
      exact hq (by simp only [ipDeliver, h0, if_pos hne, ite_self])
    have hlt := fold_lt (wordSum q ((pkt 0).toNat % 16 * 4))
    have hmod := fold_mod (wordSum q ((pkt 0).toNat % 16 * 4))
    rw [ipChecksum_eq, netHtons] at hzero
    omega
  by_contra hnew
  exact wordSum_update_ne (by omega) (by omega) hk hb
    ((hsum (update_of_ne hk0.symm ..) hnew).trans (hsum rfl h).symm)

theorem ipDeliver_damaged_ttl :
    ipDeliver (some ⟨zero, 7⟩) (update (ipHdr 9 0 7 17 0) 8 63) 20 = none :=
  ipDeliver_damaged (by decide +kernel) (by decide) (by decide +kernel) (by decide +kernel)

end BananaOS.Net
