import LibEthercat.Veth.Model

/-!
# Where replies go

A reply is the request with its addresses exchanged. `setup_ether_header` gets the two addresses as
pointers into the header that it changes: when it copies the source address, the destination that it
should be copied from is overwritten already. The addresses and ports of IP and UDP come as values.

The headers behind the IP header are where they are without IP options, and a reply to an ICMP
message is as long as the frame.

**Theorem (`network_replies_iff`).** The replies go back to the sender (`Replied`) just if the two
addresses in the Ethernet header of the request are the same, an ICMP message comes without IP
options and without padding, and the ports are where they are without options (`Mirrored`).
-/

namespace LibEthercat.Veth

open LibEthercat.Coe Gateway CoeMaster

def ARPOP_REQUEST : ℕ := 1

def ICMP_ECHO : UInt8 := 8

/-! ## Requests -/

/-- The words in the IP header. -/
def ihl (buf : Mem) : ℕ := (buf 14).toNat % 2 ^ 4

/-- Where the ICMP or UDP header is. -/
def transport (buf : Mem) : ℕ := 14 + 4 * ihl buf

def totLen (buf : Mem) : ℕ := net16 buf 16

/-- What an ICMP message has behind its checksum. -/
def icmpPayload (buf : Mem) : List UInt8 :=
  field buf (transport buf + 4) (totLen buf - (4 * ihl buf + 4))

/-- An ARP request for the address of the master. -/
structure ArpRequest (veth : EcVeth) (buf : Mem) (len : ℕ) : Prop where
  etherType : net16 buf 12 = ETHERTYPE_ARP
  op : net16 buf 20 = ARPOP_REQUEST
  target : field buf 38 4 = field veth.ip 0 4
  room : 42 ≤ len

/-- An IP packet with at least eight bytes behind its header. -/
structure IpRequest (buf : Mem) (len : ℕ) (protocol : UInt8) : Prop where
  etherType : net16 buf 12 = ETHERTYPE_IP
  protocol_eq : buf 23 = protocol
  header : 5 ≤ ihl buf
  length : 4 * ihl buf + 8 ≤ totLen buf
  room : 14 + totLen buf ≤ len

structure EchoRequest (buf : Mem) (len : ℕ) : Prop extends IpRequest buf len IPPROTO_ICMP where
  type : buf (transport buf) = ICMP_ECHO

structure GatewayRequest (buf : Mem) (len : ℕ) : Prop extends IpRequest buf len IPPROTO_UDP where
  port : net16 buf (transport buf + 2) = 0x88A4

/-! ## Property and condition -/

structure EtherReversed (buf out : Mem) : Prop where
  dhost : field out 0 6 = field buf 6 6
  shost : field out 6 6 = field buf 0 6

/-- The master answers with its own addresses. -/
structure ArpReply (veth : EcVeth) (buf out : Mem) : Prop extends EtherReversed buf out where
  op : net16 out 20 = ARPOP_REPLY
  senderMac : field out 22 6 = field veth.mac 0 6
  senderIp : field out 28 4 = field buf 38 4
  targetMac : field out 32 6 = field buf 22 6
  targetIp : field out 38 4 = field buf 28 4

structure IpReversed (buf out : Mem) (sent : ℕ) : Prop extends EtherReversed buf out where
  saddr : field out 26 4 = field buf 30 4
  daddr : field out 30 4 = field buf 26 4
  length : 14 + totLen out = sent

structure EchoReply (buf out : Mem) (sent : ℕ) : Prop extends IpReversed buf out sent where
  type : out (transport out) = ICMP_ECHOREPLY
  payload : icmpPayload out = icmpPayload buf

structure GatewayReply (buf out : Mem) (sent : ℕ) : Prop extends IpReversed buf out sent where
  sport : net16 out (transport out) = net16 buf (transport buf + 2)
  dport : net16 out (transport out + 2) = net16 buf (transport buf)
  udpLength : transport out + net16 out (transport out + 4) = sent

/-- Every request is answered with such a reply. -/
structure Replied (veth : EcVeth) (buf : Mem) (len : ℕ) (p : Processed) : Prop where
  arp : ArpRequest veth buf len → ∃ sent, p.sent = some sent ∧ ArpReply veth buf p.buf
  echo : EchoRequest buf len → ∃ sent, p.sent = some sent ∧ EchoReply buf p.buf sent
  gateway : GatewayRequest buf len → ∃ sent, p.sent = some sent ∧ GatewayReply buf p.buf sent

/-- A request has one address in both places of the Ethernet header; the headers are where they are
without IP options. -/
structure Mirrored (veth : EcVeth) (buf : Mem) (len : ℕ) : Prop where
  ether : ArpRequest veth buf len ∨ EchoRequest buf len ∨ GatewayRequest buf len →
    field buf 0 6 = field buf 6 6
  echo : EchoRequest buf len → ihl buf = 5 ∧ len = 14 + totLen buf
  gateway : GatewayRequest buf len →
    net16 buf 34 = net16 buf (transport buf) ∧ net16 buf 36 = net16 buf (transport buf + 2)

/-! ## Fields -/

section
variable {m m' buf src : Mem} {f : Mem → Mem} {pos pos' d i j n v : ℕ}

theorem field_congr (h : ∀ i < n, m (pos + i) = m' (pos' + i)) :
    field m pos n = field m' pos' n :=
  List.map_congr_left fun i hi => h i (List.mem_range.1 hi)

theorem length_field : (field m pos n).length = n := by
  rw [field, List.length_map, List.length_range]

/-- The bytes of equal fields. -/
theorem field_inj (h : field m pos n = field m' pos' n) (hi : i < n) :
    m (pos + i) = m' (pos' + i) :=
  List.map_inj_left.1 h i (List.mem_range.2 hi)

theorem net16_congr (h : field m i 2 = field m' j 2) : net16 m i = net16 m' j := by
  have h0 : m i = m' j := field_inj (i := 0) h (by decide)
  rw [net16, net16, h0, field_inj (i := 1) h (by decide)]

/-- What is copied in front of it, behind it, or at its place. -/
theorem field_copy (h : n ≤ j) : field (buf.copy d src j) d n = field src 0 n :=
  field_congr fun i hi => by rw [Mem.copy_add _ _ _ _ (by omega), Nat.zero_add]

theorem field_copy_of_disjoint (h : pos + n ≤ d ∨ d + j ≤ pos) :
    field (buf.copy d src j) pos n = field buf pos n :=
  field_congr fun i hi => by
    rcases h with h | h
    · exact Mem.copy_of_lt _ _ _ (by omega)
    · exact Mem.copy_of_ge _ _ (by omega)

theorem field_update_of_disjoint {b : UInt8} (h : pos + n ≤ i ∨ i < pos) :
    field (Function.update buf i b) pos n = field buf pos n :=
  field_congr fun k hk => Function.update_of_ne (by omega) _ _

theorem field_setU16_of_disjoint (h : pos + n ≤ i ∨ i + 2 ≤ pos) :
    field (setU16 buf i v) pos n = field buf pos n :=
  field_congr fun k hk => setU16_of_ne _ _ (by omega) (by omega)

theorem field_view : field (view buf pos) i n = field buf (pos + i) n :=
  field_congr fun k _ => by rw [view, Nat.add_assoc]

theorem field_within_of_ge (h : pos ≤ i) :
    field (within buf pos f) i n = field (f (view buf pos)) (i - pos) n :=
  field_congr fun k _ => by rw [within_of_ge (by omega), Nat.sub_add_comm h]

theorem field_within_of_le (h : i + n ≤ pos) : field (within buf pos f) i n = field buf i n :=
  field_congr fun k hk => within_of_lt (by omega)

theorem net16_setU16_of_disjoint (h : pos + 2 ≤ i ∨ i + 2 ≤ pos) :
    net16 (setU16 buf i v) pos = net16 buf pos :=
  net16_congr (field_setU16_of_disjoint h)

theorem net16_view : net16 (view buf pos) i = net16 buf (pos + i) := net16_congr field_view

theorem net16_within (h : pos ≤ i) :
    net16 (within buf pos f) i = net16 (f (view buf pos)) (i - pos) :=
  net16_congr (field_within_of_ge h)

theorem net16_within_of_le (h : i + 2 ≤ pos) : net16 (within buf pos f) i = net16 buf i :=
  net16_congr (field_within_of_le h)

theorem htons_htons (h : v < 2 ^ 16) : htons (htons v) = v := by
  have hlow : htons v % 2 ^ 8 = v / 2 ^ 8 % 2 ^ 8 := by
    rw [htons]
    omega
  have hhigh : htons v / 2 ^ 8 = v % 2 ^ 8 := by
    rw [htons]
    omega
  rw [htons, hlow, hhigh]
  omega

theorem net16_setU16_htons (h : v < 2 ^ 16) : net16 (setU16 buf i (htons v)) i = v := by
  rw [← htons_u16, u16_setU16, Nat.mod_eq_of_lt (htons_lt _), htons_htons h]

theorem field_of_u32 (h : u32 m i = u32 m' j) : field m i 4 = field m' j 4 := by
  have hlow := u16_lt m i
  have hlow' := u16_lt m' j
  have hword : u16 m i = u16 m' j ∧ u16 m (i + 2) = u16 m' (j + 2) := by
    simp only [u32] at h
    omega
  have hbytes : ∀ {i j : ℕ}, u16 m i = u16 m' j → m i = m' j ∧ m (i + 1) = m' (j + 1) := by
    intro i j hu
    have h0 := (m i).toNat_lt
    have h0' := (m' j).toNat_lt
    simp only [u16] at hu
    exact ⟨UInt8.toNat_inj.1 (by omega), UInt8.toNat_inj.1 (by omega)⟩
  obtain ⟨h0, h1⟩ := hbytes hword.1
  obtain ⟨h2, h3⟩ := hbytes hword.2
  refine field_congr fun k hk => ?_
  obtain rfl | rfl | rfl | rfl : k = 0 ∨ k = 1 ∨ k = 2 ∨ k = 3 := by omega
  · exact h0
  · exact h1
  · exact h2
  · exact h3

theorem field_setU32_of_disjoint (h : pos + n ≤ i ∨ i + 4 ≤ pos) :
    field (setU32 buf i v) pos n = field buf pos n := by
  rw [setU32, field_setU16_of_disjoint (by omega), field_setU16_of_disjoint (by omega)]

/-- An address that is passed as a value. -/
theorem field_setU32 : field (setU32 buf i (u32 m j)) i 4 = field m j 4 := by
  have hlow := u16_lt m j
  have hhigh := u16_lt m (j + 2)
  refine field_of_u32 ?_
  rw [u32_setU32, Nat.mod_eq_of_lt]
  rw [u32]
  omega

end

/-! ## Ethernet headers -/

section
variable {buf : Mem} {t : ℕ}

theorem setupEtherHeader_dhost : field (setupEtherHeader buf 0 6 t) 0 6 = field buf 6 6 := by
  rw [setupEtherHeader, field_setU16_of_disjoint (by decide), field_copy_of_disjoint (by decide),
    field_copy le_rfl, field_view]

/-- The source address is copied from where it has been copied to. -/
theorem setupEtherHeader_shost : field (setupEtherHeader buf 0 6 t) 6 6 = field buf 6 6 := by
  rw [setupEtherHeader, field_setU16_of_disjoint (by decide), field_copy le_rfl, field_view,
    field_copy le_rfl, field_view]

theorem setupEtherHeader_of_ge {pos n : ℕ} (h : 14 ≤ pos) :
    field (setupEtherHeader buf 0 6 t) pos n = field buf pos n := by
  rw [setupEtherHeader, field_setU16_of_disjoint (by omega), field_copy_of_disjoint (by omega),
    field_copy_of_disjoint (by omega)]

/-- The addresses are exchanged if there is only one. -/
theorem etherReversed_iff {out : Mem} (hdhost : field out 0 6 = field buf 6 6)
    (hshost : field out 6 6 = field buf 6 6) :
    EtherReversed buf out ↔ field buf 0 6 = field buf 6 6 := by
  constructor
  · exact fun h => h.shost.symm.trans hshost
  · exact fun h => ⟨hdhost, hshost.trans h.symm⟩

end

/-! ## The other headers -/

section
variable {buf ip udp : Mem} {protocol : UInt8} {len src dst sport dport pos n : ℕ}

theorem setupIphdr_of_ge (h : 20 ≤ pos) :
    field (setupIphdr ip protocol len src dst) pos n = field ip pos n := by
  simp (disch := omega) only [setupIphdr, setBits, field_setU16_of_disjoint,
    field_setU32_of_disjoint, field_update_of_disjoint]

theorem net16_setupIphdr_of_ge (h : 20 ≤ pos) :
    net16 (setupIphdr ip protocol len src dst) pos = net16 ip pos :=
  net16_congr (setupIphdr_of_ge h)

theorem setupIphdr_ihl : (setupIphdr ip protocol len src dst 0).toNat % 2 ^ 4 = 5 := by
  have hfield : field (setupIphdr ip protocol len src dst) 0 1 =
      field (setBits (setBits ip 0 4 4 4) 0 0 4 5) 0 1 := by
    simp (disch := decide) only [setupIphdr, field_setU16_of_disjoint, field_setU32_of_disjoint,
      field_update_of_disjoint]
  have hbyte : setupIphdr ip protocol len src dst 0 = setBits (setBits ip 0 4 4 4) 0 0 4 5 0 :=
    field_inj (i := 0) hfield (by decide)
  have hihl : BitField.get (setBits (setBits ip 0 4 4 4) 0 0 4 5 0).toNat 0 4 = 5 := by
    rw [get_setBits _ _ (by decide), BitField.get_set_self]
    rfl
  rwa [BitField.get, Nat.pow_zero, Nat.div_one, ← hbyte] at hihl

theorem net16_setupIphdr (h : len < 2 ^ 16) :
    net16 (setupIphdr ip protocol len src dst) 2 = len := by
  have hfield : field (setupIphdr ip protocol len src dst) 2 2 = field (setU16 (Function.update
      (setBits (setBits ip 0 4 4 4) 0 0 4 5) 1 0) 2 (htons len)) 2 2 := by
    simp (disch := decide) only [setupIphdr, field_setU16_of_disjoint, field_setU32_of_disjoint,
      field_update_of_disjoint]
  exact (net16_congr hfield).trans (net16_setU16_htons h)

theorem setupIphdr_saddr :
    field (setupIphdr ip protocol len (u32 ip 16) dst) 12 4 = field ip 16 4 := by
  rw [setupIphdr, field_setU16_of_disjoint (by decide), field_setU32_of_disjoint (by decide)]
  exact field_setU32

theorem setupIphdr_daddr :
    field (setupIphdr ip protocol len src (u32 ip 12)) 16 4 = field ip 12 4 := by
  rw [setupIphdr, field_setU16_of_disjoint (by decide)]
  exact field_setU32

theorem net16_setupUdphdr_sport (h : sport < 2 ^ 16) :
    net16 (setupUdphdr udp sport dport len) 0 = sport := by
  have hfield : field (setupUdphdr udp sport dport len) 0 2 =
      field (setU16 udp 0 (htons sport)) 0 2 := by
    simp (disch := decide) only [setupUdphdr, field_setU16_of_disjoint]
  exact (net16_congr hfield).trans (net16_setU16_htons h)

theorem net16_setupUdphdr_dport (h : dport < 2 ^ 16) :
    net16 (setupUdphdr udp sport dport len) 2 = dport := by
  have hfield : field (setupUdphdr udp sport dport len) 2 2 =
      field (setU16 (setU16 udp 0 (htons sport)) 2 (htons dport)) 2 2 := by
    simp (disch := decide) only [setupUdphdr, field_setU16_of_disjoint]
  exact (net16_congr hfield).trans (net16_setU16_htons h)

/-! ### Checksums -/

theorem field_ipChecksum (h : pos + n ≤ 10 ∨ 12 ≤ pos) :
    field (calculateIpChecksum ip) pos n = field ip pos n := by
  rw [calculateIpChecksum, field_setU16_of_disjoint h, field_setU16_of_disjoint h]

theorem net16_ipChecksum (h : pos + 2 ≤ 10 ∨ 12 ≤ pos) :
    net16 (calculateIpChecksum ip) pos = net16 ip pos :=
  net16_congr (field_ipChecksum h)

theorem calculateIpChecksum_zero : calculateIpChecksum ip 0 = ip 0 :=
  field_inj (i := 0) (field_ipChecksum (.inl (by decide))) (show 0 < 1 by decide)

theorem field_icmpChecksum {icmp : Mem} (h : pos + n ≤ 2 ∨ 4 ≤ pos) :
    field (calculateIcmpChecksum icmp len) pos n = field icmp pos n := by
  rw [calculateIcmpChecksum, field_setU16_of_disjoint h, field_setU16_of_disjoint h]

theorem field_udpChecksum (h : pos + n ≤ 6 ∨ 8 ≤ pos) :
    field (calculateUdpChecksum ip udp) pos n = field udp pos n := by
  rw [calculateUdpChecksum, field_setU16_of_disjoint h, field_setU16_of_disjoint h]

theorem net16_udpChecksum (h : pos + 2 ≤ 6 ∨ 8 ≤ pos) :
    net16 (calculateUdpChecksum ip udp) pos = net16 udp pos :=
  net16_congr (field_udpChecksum h)

end

/-! ## ARP -/

section
variable {veth : EcVeth} {buf : Mem} {len n : ℕ}

theorem answerArp_dhost (veth : EcVeth) (buf : Mem) :
    field (answerArp veth buf) 0 6 = field buf 6 6 := by
  rw [answerArp, setupEtherHeader_dhost]
  simp (disch := decide) only [field_setU16_of_disjoint, field_copy_of_disjoint]

theorem answerArp_shost (veth : EcVeth) (buf : Mem) :
    field (answerArp veth buf) 6 6 = field buf 6 6 := by
  rw [answerArp, setupEtherHeader_shost]
  simp (disch := decide) only [field_setU16_of_disjoint, field_copy_of_disjoint]

theorem answerArp_op : net16 (answerArp veth buf) 20 = ARPOP_REPLY :=
  (net16_congr (setupEtherHeader_of_ge (by decide))).trans (net16_setU16_htons (by decide))

theorem answerArp_senderMac : field (answerArp veth buf) 22 6 = field veth.mac 0 6 := by
  simp (disch := decide) only [answerArp, setupEtherHeader_of_ge, field_setU16_of_disjoint,
    field_copy_of_disjoint, field_copy]

theorem answerArp_senderIp : field (answerArp veth buf) 28 4 = field veth.ip 0 4 := by
  simp (disch := decide) only [answerArp, setupEtherHeader_of_ge, field_setU16_of_disjoint,
    field_copy]

theorem answerArp_targetMac : field (answerArp veth buf) 32 6 = field buf 22 6 := by
  simp (disch := decide) only [answerArp, setupEtherHeader_of_ge, field_setU16_of_disjoint,
    field_copy_of_disjoint, field_copy, field_view, Nat.add_zero]

/-- The sender is read before it is overwritten. -/
theorem answerArp_targetIp : field (answerArp veth buf) 38 4 = field buf 28 4 := by
  simp (disch := decide) only [answerArp, setupEtherHeader_of_ge, field_setU16_of_disjoint,
    field_copy_of_disjoint, field_copy, field_view, Nat.add_zero]

theorem answerArp_reply_iff (h : ArpRequest veth buf len) :
    ArpReply veth buf (answerArp veth buf) ↔ field buf 0 6 = field buf 6 6 := by
  rw [← etherReversed_iff (answerArp_dhost veth buf) (answerArp_shost veth buf)]
  constructor
  · exact ArpReply.toEtherReversed
  · exact fun hether => ⟨hether, answerArp_op, answerArp_senderMac,
      answerArp_senderIp.trans h.target.symm, answerArp_targetMac, answerArp_targetIp⟩

end

/-! ## ICMP -/

section
variable {buf : Mem} {len n pos : ℕ}

theorem answerIcmp_dhost : field (answerIcmp buf) 0 6 = field buf 6 6 := by
  simp (disch := decide) only [answerIcmp, field_within_of_le, setupEtherHeader_dhost]

theorem answerIcmp_shost : field (answerIcmp buf) 6 6 = field buf 6 6 := by
  simp (disch := decide) only [answerIcmp, field_within_of_le, setupEtherHeader_shost]

theorem answerIcmp_saddr : field (answerIcmp buf) 26 4 = field buf 30 4 := by
  simp (disch := decide) only [answerIcmp, field_within_of_le, field_within_of_ge, Nat.reduceSub,
    field_ipChecksum, view_within, setupIphdr_saddr, field_view, Nat.reduceAdd,
    setupEtherHeader_of_ge]

theorem answerIcmp_daddr : field (answerIcmp buf) 30 4 = field buf 26 4 := by
  simp (disch := decide) only [answerIcmp, field_within_of_le, field_within_of_ge, Nat.reduceSub,
    field_ipChecksum, view_within, setupIphdr_daddr, field_view, Nat.reduceAdd,
    setupEtherHeader_of_ge]

theorem answerIcmp_totLen : totLen (answerIcmp buf) = totLen buf := by
  rw [answerIcmp, totLen, net16_within (by decide), net16_ipChecksum (by decide), view_within,
    net16_setupIphdr (htons_lt _), htons_u16]
  refine net16_congr ?_
  simp (disch := decide) only [field_view, Nat.reduceAdd, setupEtherHeader_of_ge,
    field_within_of_le]

theorem answerIcmp_ihl : ihl (answerIcmp buf) = 5 := by
  rw [answerIcmp, ihl, within_of_ge le_rfl, Nat.sub_self, calculateIpChecksum_zero, view_within,
    setupIphdr_ihl]

theorem answerIcmp_transport : transport (answerIcmp buf) = 34 := by
  rw [transport, answerIcmp_ihl]

theorem answerIcmp_type : answerIcmp buf 34 = ICMP_ECHOREPLY := by
  have hfield : field (answerIcmp buf) 34 1 =
      field (Function.update (view buf 34) 0 ICMP_ECHOREPLY) 0 1 := by
    simp (disch := decide) only [answerIcmp, field_within_of_ge, Nat.reduceSub, field_ipChecksum,
      field_icmpChecksum, view_within, setupIphdr_of_ge, field_view, Nat.reduceAdd,
      setupEtherHeader_of_ge]
  exact (field_inj (i := 0) hfield (by decide)).trans (Function.update_self _ _ _)

/-- What is behind the checksum stays. -/
theorem answerIcmp_of_ge (h : 38 ≤ pos) : field (answerIcmp buf) pos n = field buf pos n := by
  simp (disch := omega) only [answerIcmp, field_within_of_ge, field_ipChecksum,
    field_icmpChecksum, field_update_of_disjoint, view_within, setupIphdr_of_ge, field_view,
    setupEtherHeader_of_ge, Nat.add_sub_of_le]

end

/-! ## UDP -/

section
variable {buf : Mem} {srcPort dstPort len n pos : ℕ}

theorem answerUdp_dhost : field (answerUdp buf srcPort dstPort) 0 6 = field buf 6 6 := by
  simp (disch := decide) only [answerUdp, udpHeaders, field_within_of_le, setupEtherHeader_dhost]

theorem answerUdp_shost : field (answerUdp buf srcPort dstPort) 6 6 = field buf 6 6 := by
  simp (disch := decide) only [answerUdp, udpHeaders, field_within_of_le, setupEtherHeader_shost]

theorem answerUdp_saddr : field (answerUdp buf srcPort dstPort) 26 4 = field buf 30 4 := by
  simp (disch := decide) only [answerUdp, udpHeaders, field_within_of_le, field_within_of_ge,
    Nat.reduceSub, field_ipChecksum, field_setU16_of_disjoint, setupIphdr_saddr, field_view,
    Nat.reduceAdd, setupEtherHeader_of_ge]

theorem answerUdp_daddr : field (answerUdp buf srcPort dstPort) 30 4 = field buf 26 4 := by
  simp (disch := decide) only [answerUdp, udpHeaders, field_within_of_le, field_within_of_ge,
    Nat.reduceSub, field_ipChecksum, field_setU16_of_disjoint, setupIphdr_daddr, field_view,
    Nat.reduceAdd, setupEtherHeader_of_ge]

theorem answerUdp_ihl : ihl (answerUdp buf srcPort dstPort) = 5 := by
  have hfield : field (answerUdp buf srcPort dstPort) 14 1 =
      field (view (udpHeaders buf srcPort dstPort) 14) 0 1 := by
    simp (disch := decide) only [answerUdp, field_within_of_le, field_within_of_ge, Nat.reduceSub,
      field_ipChecksum, field_setU16_of_disjoint, field_view, Nat.reduceAdd]
  have hbyte : answerUdp buf srcPort dstPort 14 = view (udpHeaders buf srcPort dstPort) 14 0 :=
    field_inj (i := 0) hfield (by decide)
  rw [ihl, hbyte, udpHeaders, view_within, setupIphdr_ihl]

theorem answerUdp_transport : transport (answerUdp buf srcPort dstPort) = 34 := by
  rw [transport, answerUdp_ihl]

theorem answerUdp_sport (h : dstPort < 2 ^ 16) :
    net16 (answerUdp buf srcPort dstPort) 34 = dstPort := by
  simp (disch := decide) only [answerUdp, udpHeaders, net16_within, net16_udpChecksum,
    net16_ipChecksum, net16_setU16_of_disjoint, net16_setupIphdr_of_ge, net16_view, Nat.reduceSub,
    Nat.reduceAdd]
  exact net16_setupUdphdr_sport h

theorem answerUdp_dport (h : srcPort < 2 ^ 16) :
    net16 (answerUdp buf srcPort dstPort) 36 = srcPort := by
  simp (disch := decide) only [answerUdp, udpHeaders, net16_within, net16_udpChecksum,
    net16_ipChecksum, net16_setU16_of_disjoint, net16_setupIphdr_of_ge, net16_view, Nat.reduceSub,
    Nat.reduceAdd]
  exact net16_setupUdphdr_dport h

/-- The IP packet is as long as its header and the datagram. -/
theorem answerUdp_lengths : totLen (answerUdp buf srcPort dstPort) =
    20 + net16 (answerUdp buf srcPort dstPort) 38 := by
  have hlt : headerLength (view (udpHeaders buf srcPort dstPort) 42) < 2 ^ 11 :=
    Nat.mod_lt _ (by decide)
  have htot : totLen (answerUdp buf srcPort dstPort) =
      20 + 8 + 2 + headerLength (view (udpHeaders buf srcPort dstPort) 42) := by
    simp (disch := decide) only [answerUdp, totLen, net16_within_of_le, net16_within,
      net16_ipChecksum, net16_view, Nat.reduceSub, Nat.reduceAdd]
    exact net16_setU16_htons (by omega)
  have hudp : net16 (answerUdp buf srcPort dstPort) 38 =
      8 + 2 + headerLength (view (udpHeaders buf srcPort dstPort) 42) := by
    simp (disch := decide) only [answerUdp, net16_within, net16_udpChecksum, net16_ipChecksum,
      net16_view, Nat.reduceSub, Nat.reduceAdd]
    exact net16_setU16_htons (by omega)
  omega

end

/-! ## Every frame -/

section
variable {env : Env} {pec : Master} {x : Surroundings} {veth : EcVeth} {buf : Mem} {len : ℕ}

theorem processFrame_arp (h : ArpRequest veth buf len) :
    ecVethProcessFrame env pec x veth buf len = ⟨answerArp veth buf, some len⟩ := by
  rw [ecVethProcessFrame, htons_u16, if_pos h.etherType, if_pos h.target]

theorem processFrame_echo (h : EchoRequest buf len) :
    ecVethProcessFrame env pec x veth buf len = ⟨answerIcmp buf, some len⟩ := by
  rw [ecVethProcessFrame, htons_u16, h.etherType, if_neg (by decide), if_pos rfl,
    if_pos h.protocol_eq]

/-- A datagram with the port where it is without IP options. -/
theorem processFrame_gateway (env : Env) (pec : Master) (x : Surroundings) (veth : EcVeth)
    (h : GatewayRequest buf len) (hport : net16 buf 36 = 0x88A4) :
    ∃ f, ecVethProcessFrame env pec x veth buf len =
      ⟨answerUdp (within buf 42 f) (net16 buf 34) (net16 buf 36),
        some (14 + totLen (answerUdp (within buf 42 f) (net16 buf 34) (net16 buf 36)))⟩ := by
  refine ⟨fun echdr => (ecMbxGatewayHandle env pec x echdr).buf, ?_⟩
  rw [ecVethProcessFrame, htons_u16, h.etherType, if_neg (by decide), if_pos rfl, h.protocol_eq,
    if_neg (by decide), if_pos rfl, htons_u16, htons_u16, if_pos hport]
  dsimp only
  rw [htons_u16, totLen, Nat.add_comm]

theorem processFrame_otherPort (h : GatewayRequest buf len) (hport : net16 buf 36 ≠ 0x88A4) :
    (ecVethProcessFrame env pec x veth buf len).sent = none := by
  rw [ecVethProcessFrame, htons_u16, h.etherType, if_neg (by decide), if_pos rfl, h.protocol_eq,
    if_neg (by decide), if_pos rfl, htons_u16, htons_u16, if_neg hport]

/-- The payload is found in the reply if there are no IP options. -/
theorem icmpPayload_answerIcmp_iff (h : EchoRequest buf len) :
    icmpPayload (answerIcmp buf) = icmpPayload buf ↔ ihl buf = 5 := by
  have hheader := h.header
  have hlength := h.length
  have hpayload : icmpPayload (answerIcmp buf) = field buf 38 (totLen buf - 24) := by
    rw [icmpPayload, answerIcmp_transport, answerIcmp_ihl, answerIcmp_totLen]
    exact answerIcmp_of_ge le_rfl
  rw [hpayload]
  constructor
  · intro heq
    have hlen := congrArg List.length heq
    rw [icmpPayload, length_field, length_field] at hlen
    omega
  · intro hihl
    rw [icmpPayload, transport, hihl]

theorem echoReply_iff (h : EchoRequest buf len) : EchoReply buf (answerIcmp buf) len ↔
    field buf 0 6 = field buf 6 6 ∧ ihl buf = 5 ∧ len = 14 + totLen buf := by
  rw [← etherReversed_iff answerIcmp_dhost answerIcmp_shost, ← icmpPayload_answerIcmp_iff h,
    ← answerIcmp_totLen]
  constructor
  · exact fun hreply => ⟨hreply.toEtherReversed, hreply.payload, hreply.length.symm⟩
  · rintro ⟨hether, hpayload, hlen⟩
    exact ⟨⟨hether, answerIcmp_saddr, answerIcmp_daddr, hlen.symm⟩,
      answerIcmp_transport.symm ▸ answerIcmp_type, hpayload⟩

/-- The ports are those of the request if they are read where they are. -/
theorem gatewayReply_iff {f : Mem → Mem} {out : Mem}
    (hout : out = answerUdp (within buf 42 f) (net16 buf 34) (net16 buf 36)) :
    GatewayReply buf out (14 + totLen out) ↔ field buf 0 6 = field buf 6 6 ∧
      net16 buf 34 = net16 buf (transport buf) ∧
        net16 buf 36 = net16 buf (transport buf + 2) := by
  have hdhost : field out 0 6 = field buf 6 6 := by
    rw [hout, answerUdp_dhost, field_within_of_le (by decide)]
  have hshost : field out 6 6 = field buf 6 6 := by
    rw [hout, answerUdp_shost, field_within_of_le (by decide)]
  have hsaddr : field out 26 4 = field buf 30 4 := by
    rw [hout, answerUdp_saddr, field_within_of_le (by decide)]
  have hdaddr : field out 30 4 = field buf 26 4 := by
    rw [hout, answerUdp_daddr, field_within_of_le (by decide)]
  have htransport : transport out = 34 := by
    rw [hout, answerUdp_transport]
  have hsport : net16 out 34 = net16 buf 36 := by
    rw [hout, answerUdp_sport (net16_lt buf 36)]
  have hdport : net16 out 36 = net16 buf 34 := by
    rw [hout, answerUdp_dport (net16_lt buf 34)]
  have hlengths : totLen out = 20 + net16 out 38 := by
    rw [hout]
    exact answerUdp_lengths
  rw [← etherReversed_iff hdhost hshost]
  constructor
  · intro h
    have hs := h.sport
    have hd := h.dport
    rw [htransport] at hs hd
    exact ⟨h.toEtherReversed, hdport.symm.trans hd, hsport.symm.trans hs⟩
  · rintro ⟨hether, hd, hs⟩
    refine ⟨⟨hether, hsaddr, hdaddr, rfl⟩, ?_, ?_, ?_⟩
    · rw [htransport, hsport, hs]
    · rw [htransport, hdport, hd]
    · rw [htransport, hlengths, ← Nat.add_assoc]

/-- A request to the port of the gateway. -/
theorem repliedGateway_iff (h : GatewayRequest buf len) :
    (∃ sent, (ecVethProcessFrame env pec x veth buf len).sent = some sent ∧
      GatewayReply buf (ecVethProcessFrame env pec x veth buf len).buf sent) ↔
        field buf 0 6 = field buf 6 6 ∧ net16 buf 34 = net16 buf (transport buf) ∧
          net16 buf 36 = net16 buf (transport buf + 2) := by
  by_cases hport : net16 buf 36 = 0x88A4
  · obtain ⟨f, hf⟩ := processFrame_gateway env pec x veth h hport
    rw [hf, ← gatewayReply_iff rfl]
    exact ⟨fun ⟨_, hsent, hreply⟩ => Option.some.inj hsent ▸ hreply,
      fun hreply => ⟨_, rfl, hreply⟩⟩
  · -- nothing is sent
    have hnone : (ecVethProcessFrame env pec x veth buf len).sent = none :=
      processFrame_otherPort h hport
    refine iff_of_false ?_ fun hmirrored => hport (hmirrored.2.2.trans h.port)
    rintro ⟨sent, hsent, -⟩
    rw [hnone] at hsent
    cases hsent

/-- **Where replies go**, for every frame. -/
theorem network_replies_iff (env : Env) (pec : Master) (x : Surroundings) (veth : EcVeth)
    (buf : Mem) (len : ℕ) :
    Replied veth buf len (ecVethProcessFrame env pec x veth buf len) ↔ Mirrored veth buf len := by
  have harp (h : ArpRequest veth buf len) :
      (∃ sent, (ecVethProcessFrame env pec x veth buf len).sent = some sent ∧
        ArpReply veth buf (ecVethProcessFrame env pec x veth buf len).buf) ↔
          field buf 0 6 = field buf 6 6 := by
    rw [processFrame_arp h, ← answerArp_reply_iff h]
    exact ⟨fun ⟨_, _, hreply⟩ => hreply, fun hreply => ⟨len, rfl, hreply⟩⟩
  have hecho (h : EchoRequest buf len) :
      (∃ sent, (ecVethProcessFrame env pec x veth buf len).sent = some sent ∧
        EchoReply buf (ecVethProcessFrame env pec x veth buf len).buf sent) ↔
          field buf 0 6 = field buf 6 6 ∧ ihl buf = 5 ∧ len = 14 + totLen buf := by
    rw [processFrame_echo h, ← echoReply_iff h]
    exact ⟨fun ⟨_, hsent, hreply⟩ => Option.some.inj hsent ▸ hreply,
      fun hreply => ⟨len, rfl, hreply⟩⟩
  constructor
  · intro h
    refine ⟨?_, fun he => ((hecho he).1 (h.echo he)).2,
      fun hg => ((repliedGateway_iff hg).1 (h.gateway hg)).2⟩
    rintro (ha | he | hg)
    · exact (harp ha).1 (h.arp ha)
    · exact ((hecho he).1 (h.echo he)).1
    · exact ((repliedGateway_iff hg).1 (h.gateway hg)).1
  · intro h
    exact ⟨fun ha => (harp ha).2 (h.ether (.inl ha)),
      fun he => (hecho he).2 ⟨h.ether (.inr (.inl he)), h.echo he⟩,
      fun hg => (repliedGateway_iff hg).2 ⟨h.ether (.inr (.inr hg)), h.gateway hg⟩⟩

end

/-- An echo request from 192.168.2.2 to 192.168.2.1, of 42 bytes. -/
def echoRequest : Mem := fun i =>
  [2, 0, 0, 0, 0, 1, 2, 0, 0, 0, 0, 2, 8, 0, 0x45, 0, 0, 28, 0, 0, 0, 0, 64, 1, 0, 0,
    192, 168, 2, 2, 192, 168, 2, 1, 8, 0, 0, 0, 0, 1, 0, 1].getD i 0

def masterVeth : EcVeth where
  mac i := [2, 0, 0, 0, 0, 1].getD i 0
  ip i := [192, 168, 2, 1].getD i 0

/-- The reply has the address of its destination in both places. -/
theorem echoRequest_not_reversed : ¬ ∀ env pec x veth buf len,
    Replied veth buf len (ecVethProcessFrame env pec x veth buf len) := by
  intro hall
  have hrequest : EchoRequest echoRequest 42 :=
    ⟨⟨by decide, by decide, by decide, by decide, by decide⟩, by decide⟩
  obtain ⟨sent, hsent, hreply⟩ := (hall silentEnv (masterOf []) ⟨fun _ => 0, true, 1, none⟩
    masterVeth echoRequest 42).echo hrequest
  rw [processFrame_echo hrequest] at hreply
  have hsource : field echoRequest 6 6 = field echoRequest 0 6 :=
    answerIcmp_shost.symm.trans hreply.shost
  revert hsource
  decide

end LibEthercat.Veth
