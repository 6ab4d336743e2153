import LibEthercat.Gateway.Model
import LibEthercat.Veth.Checksum

/-!
# Frames from the network

`ec_veth_process_frame` answers a frame in the buffer that it came in. The Ethernet header is at 0,
the ARP or IP header at 14, the ARP payload at 22, the ICMP or UDP header at 34, and the EtherCAT
header of a gateway request at 42.

The setup functions get the addresses of an Ethernet header as pointers into that header, and those
of an IP header as values.
-/

namespace LibEthercat.Veth

open LibEthercat.Coe Gateway CoeMaster

def ETHERTYPE_IP : ℕ := 0x0800

def ETHERTYPE_ARP : ℕ := 0x0806

def ARPOP_REPLY : ℕ := 2

def IPPROTO_ICMP : UInt8 := 1

def IPPROTO_UDP : UInt8 := 17

def ICMP_ECHOREPLY : UInt8 := 0

/-! ## Parts of a frame -/

/-- What a pointer to `pos` points to. -/
def view (buf : Mem) (pos : ℕ) : Mem := fun i => buf (pos + i)

def field (buf : Mem) (pos n : ℕ) : List UInt8 := (List.range n).map fun i => buf (pos + i)

/-- Change what a pointer to `pos` points to. -/
def within (buf : Mem) (pos : ℕ) (f : Mem → Mem) : Mem := fun i =>
  if i < pos then buf i else f (view buf pos) (i - pos)

section
variable {buf : Mem} {pos i : ℕ} {f : Mem → Mem}

theorem within_of_lt (h : i < pos) : within buf pos f i = buf i := if_pos h

theorem within_of_ge (h : pos ≤ i) : within buf pos f i = f (view buf pos) (i - pos) :=
  if_neg (Nat.not_lt.2 h)

theorem view_within : view (within buf pos f) pos = f (view buf pos) := by
  funext i
  rw [view, within_of_ge (Nat.le_add_right pos i), Nat.add_sub_cancel_left]

end

/-! ## Headers -/

/-- `setup_ether_header`, with the places that `shost` and `dhost` point to. -/
def setupEtherHeader (buf : Mem) (shost dhost etherType : ℕ) : Mem :=
  let buf := buf.copy 0 (view buf dhost) 6
  let buf := buf.copy 6 (view buf shost) 6
  setU16 buf 12 (htons etherType)

/-- `setup_iphdr` -/
def setupIphdr (ip : Mem) (protocol : UInt8) (len src dst : ℕ) : Mem :=
  let ip := setBits ip 0 4 4 4
  let ip := setBits ip 0 0 4 5
  let ip := Function.update ip 1 0
  let ip := setU16 ip 2 (htons len)
  let ip := setU16 ip 4 (htons 12345)
  let ip := setU16 ip 6 0
  let ip := Function.update ip 8 64
  let ip := Function.update ip 9 protocol
  let ip := setU32 ip 12 src
  let ip := setU32 ip 16 dst
  setU16 ip 10 0

/-- `setup_udphdr` -/
def setupUdphdr (udp : Mem) (sport dport len : ℕ) : Mem :=
  let udp := setU16 udp 0 (htons sport)
  let udp := setU16 udp 2 (htons dport)
  let udp := setU16 udp 4 (htons len)
  setU16 udp 6 0

/-! ## Frames -/

/-- `pec->veth`: the bytes of `mac` and `ip`. -/
structure EcVeth where
  mac : Mem
  ip : Mem

/-- The buffer behind a call, and how much of it has been sent. -/
structure Processed where
  buf : Mem
  sent : Option ℕ

/-- An ARP frame for the address of the master. -/
def answerArp (veth : EcVeth) (buf : Mem) : Mem :=
  let buf := buf.copy 32 (view buf 22) 6
  let buf := buf.copy 22 veth.mac 6
  let buf := buf.copy 38 (view buf 28) 4
  let buf := buf.copy 28 veth.ip 4
  let buf := setU16 buf 20 (htons ARPOP_REPLY)
  setupEtherHeader buf 0 6 ETHERTYPE_ARP

/-- An ICMP message. The length of the message is of type `size_t`. -/
def answerIcmp (buf : Mem) : Mem :=
  let buf := within buf 34 fun icmp => Function.update icmp 0 ICMP_ECHOREPLY
  let len := (htons (u16 buf 16) + (2 ^ 64 - 20)) % 2 ^ 64
  let buf := within buf 34 fun icmp => calculateIcmpChecksum icmp len
  let buf := setupEtherHeader buf 0 6 ETHERTYPE_IP
  let buf := within buf 14 fun ip =>
    setupIphdr ip IPPROTO_ICMP (htons (u16 ip 2)) (u32 ip 16) (u32 ip 12)
  within buf 14 calculateIpChecksum

/-- The headers of an answer, with the lengths of the request. -/
def udpHeaders (buf : Mem) (srcPort dstPort : ℕ) : Mem :=
  let buf := setupEtherHeader buf 0 6 ETHERTYPE_IP
  let buf := within buf 34 fun udp => setupUdphdr udp dstPort srcPort (htons (u16 udp 4))
  within buf 14 fun ip =>
    setupIphdr ip IPPROTO_UDP (htons (u16 ip 2)) (u32 ip 16) (u32 ip 12)

/-- A datagram to the port of the gateway, with the answer of the gateway at 42. -/
def answerUdp (buf : Mem) (srcPort dstPort : ℕ) : Mem :=
  let buf := udpHeaders buf srcPort dstPort
  let length := headerLength (view buf 42)
  let buf := within buf 14 fun ip => setU16 ip 2 (htons (20 + 8 + 2 + length))
  let buf := within buf 34 fun udp => setU16 udp 4 (htons (8 + 2 + length))
  let buf := within buf 14 calculateIpChecksum
  within buf 34 (calculateUdpChecksum (view buf 14))

/-- `ec_veth_process_frame`. A TCP segment only gives a message. -/
def ecVethProcessFrame (env : Env) (pec : Master) (x : Surroundings) (veth : EcVeth) (buf : Mem)
    (len : ℕ) : Processed :=
  if htons (u16 buf 12) = ETHERTYPE_ARP then
    if field buf 38 4 = field veth.ip 0 4 then ⟨answerArp veth buf, some len⟩
    else ⟨buf, none⟩
  else if htons (u16 buf 12) = ETHERTYPE_IP then
    if buf 23 = IPPROTO_ICMP then ⟨answerIcmp buf, some len⟩
    else if buf 23 = IPPROTO_UDP then
      let srcPort := htons (u16 buf 34)
      let dstPort := htons (u16 buf 36)
      if dstPort = 0x88A4 then
        let buf := within buf 42 fun echdr => (ecMbxGatewayHandle env pec x echdr).buf
        let buf := answerUdp buf srcPort dstPort
        ⟨buf, some (htons (u16 buf 16) + 14)⟩
      else ⟨buf, none⟩
    else ⟨buf, none⟩
  else ⟨buf, none⟩

end LibEthercat.Veth
