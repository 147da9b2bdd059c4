import YlsFirmware.Theorems.Chains
import YlsFirmware.Theorems.InetChecksum
import YlsFirmware.Theorems.Pcbs

/-! Which frames reach the callback of a UDP PCB, and with which bytes: the input functions from `ethernet_input` to
`udp_input` accept the frames of one format and take it apart. -/

namespace YlsFirmware
open Packed OnesComplement

/-! ### Fields of a header -/

section
variable {mem mem' : Memory} {a a' : Nat}

theorem ofBytes_eq_of_read {bs : List Byte} (h : read mem a bs.length = bs) {k : Nat} (hk : k < bs.length) :
    mem (a + k) = ofBytes bs (0 + k) := by
  rw [(read_eq_iff rfl).mp h k hk, Nat.zero_add]
  rfl

theorem load16_congr {k : Nat} (h₀ : mem (a + k) = mem' (a' + k)) (h₁ : mem (a + (k + 1)) = mem' (a' + (k + 1))) :
    load16 mem (a + k) = load16 mem' (a' + k) := by
  rw [load16, load16, Nat.add_assoc, Nat.add_assoc, h₀, h₁]

theorem load32_congr {k : Nat} (h : ∀ i < 4, mem (a + (k + i)) = mem' (a' + (k + i))) :
    load32 mem (a + k) = load32 mem' (a' + k) := by
  have hlow := load16_congr (h 0 (by decide)) (h 1 (by decide))
  have hhigh := load16_congr (h 2 (by decide)) (h 3 (by decide))
  rw [Nat.add_zero] at hlow
  rw [← Nat.add_assoc, ← Nat.add_assoc] at hhigh
  rw [load32, load32, hlow, hhigh]

/-- The fields of an IP header are those of a copy of it. -/
theorem iph_congr (h : ∀ k < 20, mem (a + k) = mem' (a' + k)) :
    iphV mem a = iphV mem' a' ∧ iphHlBytes mem a = iphHlBytes mem' a' ∧ iphLen mem a = iphLen mem' a' ∧
      iphOffset mem a = iphOffset mem' a' ∧ iphProto mem a = iphProto mem' a' ∧ iphSrc mem a = iphSrc mem' a' ∧
      iphDest mem a = iphDest mem' a' := by
  have hfirst : mem a = mem' a' := h 0 (by decide)
  refine ⟨?_, ?_, ?_, ?_, h 9 (by decide), ?_, ?_⟩
  · rw [iphV, iphV, hfirst]
  · rw [iphHlBytes, iphHlBytes, hfirst]
  · rw [iphLen, iphLen, load16_congr (h 2 (by decide)) (h 3 (by decide))]
  · exact load16_congr (h 6 (by decide)) (h 7 (by decide))
  · exact load32_congr fun i hi => h (12 + i) (by omega)
  · exact load32_congr fun i hi => h (16 + i) (by omega)

/-- A header passes the check if it is a multiple of 65535, as a number. -/
theorem inetChksum_eq_zero_iff {n : Nat} (hn : n ≤ 0x20000) :
    inetChksum mem a n = 0#16 ↔ leNat (read mem a n) ≠ 0 ∧ 65535 ∣ leNat (read mem a n) := by
  have hsame := @lwipStandardChksum_same mem a n hn
  rw [← same_sub_one_iff (by decide : 1 < 65536), inetChksum]
  constructor
  · intro hzero
    have hones : lwipStandardChksum mem a n = 65535#16 := BitVec.not_inj.mp hzero
    rw [hones] at hsame
    exact hsame.symm
  · intro hones
    have heq := (hsame.trans hones).eq (BitVec.isLt _) (by decide)
    rw [@BitVec.eq_of_toNat_eq 16 _ (~~~0#16) heq, BitVec.not_not]

end

/-! ### What the input functions do -/

section
variable {netifList : List Netif} {mem : Memory} {inp : Netif} {p : StructPbuf} {ps : List StructPbuf}

/-- The first pbuf begins with what the packet begins with. -/
theorem read_of_packet {bs cs : List Byte} (h : packet mem (p :: ps) = bs ++ cs) (hlen : bs.length ≤ p.len) :
    read mem p.payload bs.length = bs := by
  have htake : (packet mem (p :: ps)).take bs.length = bs := by
    rw [h, List.take_left' rfl]
  rw [packet_cons, List.take_append_of_le_length (by rw [length_bytes]; exact hlen)] at htake
  exact (take_read mem p.payload hlen).symm.trans htake

theorem ethernetInput_ip_iff {r : List StructPbuf} :
    ethernetInput mem (p :: ps) inp = .ip r ↔
      14 < p.len ∧ load16 mem (p.payload + 12) = lwipHtons ethtypeIp ∧ inp.etharp = true ∧
        ∃ q, pbufRemoveHeader p 14 = some q ∧ r = q :: ps := by
  rw [ethernetInput]
  dsimp only
  constructor
  · intro h
    split_ifs at h with hlen htype hetharp harp
    · have hlong : 14 < p.len := Nat.lt_of_not_le hlen
      refine ⟨hlong, htype, Bool.eq_true_of_not_eq_false fun hfalse => by simp [hfalse] at hetharp, ?_⟩
      cases hq : pbufRemoveHeader p sizeofEthHdr with
      | none =>
        rw [hq] at h
        cases h
      | some q =>
        rw [hq] at h
        exact ⟨q, hq, (EthernetInput.ip.inj h).symm⟩
    · cases hq : pbufRemoveHeader p sizeofEthHdr with
      | none =>
        rw [hq] at h
        cases h
      | some q =>
        rw [hq] at h
        cases h
  · rintro ⟨hlen, htype, hetharp, q, hq, rfl⟩
    have hlong : ¬p.len ≤ sizeofEthHdr := Nat.not_le.mpr hlen
    rw [if_neg hlong, if_pos htype, hetharp, Bool.not_true, if_neg Bool.false_ne_true, show sizeofEthHdr = 14 from rfl, hq]

/-- The interface that takes a packet, if there is one; a packet for the DHCP client is not asked for its addresses. -/
def routed (netifList : List Netif) (inp : Netif) (src dest : BitVec 32) (dhcp : Bool) : Option Netif :=
  if (ip4InputNetif netifList inp dest).isNone && dhcp then some inp
  else if !ip4AddrIsany src && (ip4AddrIsbroadcast src inp || ip4AddrIsmulticast src) then none
  else ip4InputNetif netifList inp dest

theorem ip4InputChecked_eq_some_iff {hlen : Nat} {x : Ip4Packet} :
    ip4InputChecked netifList mem p ps inp hlen = some x ↔
      inetChksum mem p.payload hlen = 0#16 ∧ ∃ netif, routed netifList inp (iphSrc mem p.payload) (iphDest mem p.payload)
          (ip4AcceptDhcp mem p.payload hlen) = some netif ∧
        ⟨netif, iphSrc mem p.payload, iphDest mem p.payload, hlen, p, ps⟩ = x := by
  have hchecked : ip4InputChecked netifList mem p ps inp hlen =
      if inetChksum mem p.payload hlen ≠ 0#16 then none
      else (routed netifList inp (iphSrc mem p.payload) (iphDest mem p.payload)
        (ip4AcceptDhcp mem p.payload hlen)).map fun netif =>
          ⟨netif, iphSrc mem p.payload, iphDest mem p.payload, hlen, p, ps⟩ := by
    rw [ip4InputChecked, routed]
    dsimp only
    cases ip4InputNetif netifList inp (iphDest mem p.payload) with
    | some netif =>
      simp only [Option.isNone_some, Bool.false_and, Bool.not_false, Bool.true_and, Bool.false_eq_true, if_false]
      generalize (!ip4AddrIsany (iphSrc mem p.payload) && (ip4AddrIsbroadcast (iphSrc mem p.payload) inp ||
        ip4AddrIsmulticast (iphSrc mem p.payload))) = bad
      cases bad <;> rfl
    | none => cases ip4AcceptDhcp mem p.payload hlen <;> simp
  by_cases hchk : inetChksum mem p.payload hlen = 0#16
  · rw [hchecked, if_neg (not_not_intro hchk), and_iff_right hchk, Option.map_eq_some_iff]
  · rw [hchecked, if_pos hchk]
    simp [hchk]

/-- `ip4_input` cuts a chain to the length in the header, if it is longer. -/
theorem trimmed_eq (p : List StructPbuf) (n : Nat) :
    (if n < totLen p then (pbufRealloc p n).1 else p) = (pbufRealloc p n).1 := by
  split_ifs with h
  · rfl
  · rw [pbufRealloc, if_pos (Nat.le_of_not_lt h)]

theorem ip4InputPacket_eq_some_iff {x : Ip4Packet} :
    ip4InputPacket netifList mem (p :: ps) inp = some x ↔
      iphV mem p.payload = 4#8 ∧ 20 ≤ iphHlBytes mem p.payload ∧
        ∃ q qs, (pbufRealloc (p :: ps) (iphLen mem p.payload)).1 = q :: qs ∧ iphHlBytes mem p.payload ≤ q.len ∧
          iphLen mem p.payload ≤ q.totLen ∧
          ip4InputChecked netifList mem q qs inp (iphHlBytes mem p.payload) = some x := by
  obtain ⟨q, qs, hq, -⟩ := pbufRealloc_cons p ps (iphLen mem p.payload)
  rw [ip4InputPacket]
  dsimp only
  rw [trimmed_eq, hq]
  dsimp only
  have hwhole : (decide (q.len < iphHlBytes mem p.payload) || decide (q.totLen < iphLen mem p.payload) ||
      decide (iphHlBytes mem p.payload < ipHlen)) = false ↔
      iphHlBytes mem p.payload ≤ q.len ∧ iphLen mem p.payload ≤ q.totLen ∧ 20 ≤ iphHlBytes mem p.payload := by
    rw [Bool.or_eq_false_iff, Bool.or_eq_false_iff, decide_eq_false_iff_not, decide_eq_false_iff_not,
      decide_eq_false_iff_not, Nat.not_lt, Nat.not_lt, Nat.not_lt, and_assoc]
    rfl
  by_cases hversion : iphV mem p.payload = 4#8
  · rw [if_neg (not_not_intro hversion), and_iff_right hversion]
    constructor
    · intro h
      split_ifs at h with hshort
      obtain ⟨hlen, htot, hhlen⟩ := hwhole.mp (Bool.eq_false_of_not_eq_true hshort)
      exact ⟨hhlen, q, qs, rfl, hlen, htot, h⟩
    · rintro ⟨hhlen, _, _, hcons, hlen, htot, h⟩
      obtain ⟨rfl, rfl⟩ := List.cons_eq_cons.mp hcons
      rw [hwhole.mpr ⟨hlen, htot, hhlen⟩, if_neg Bool.false_ne_true, h]
  · rw [if_pos hversion]
    constructor
    · intro h
      cases h
    · rintro ⟨hversion', -⟩
      exact absurd hversion' hversion

end

section
variable {netifList : List Netif} {s : Ip4State} {inp : Netif} {x : Ip4Packet}

/-- A packet that is no fragment goes to its protocol, and leaves everything as it is. -/
theorem ip4Input_of_whole {p : List StructPbuf} (h : ip4InputPacket netifList s.mem p inp = some x)
    (hwhole : isFragment s.mem x.p.payload = false) :
    ip4Input netifList s p inp = (s, [], ip4InputUpper s.mem x inp (x.p :: x.ps)) := by
  rw [ip4Input, h]
  dsimp only
  rw [hwhole, if_neg Bool.false_ne_true]

/-- What goes to a protocol has passed the checks. -/
theorem exists_packet_of_upper {p r : List StructPbuf} {proto : BitVec 8} {data : IpData}
    (h : (ip4Input netifList s p inp).2.2 = .upper proto data r) : ∃ x, ip4InputPacket netifList s.mem p inp = some x := by
  rw [ip4Input] at h
  cases hx : ip4InputPacket netifList s.mem p inp with
  | none =>
    rw [hx] at h
    cases h
  | some x => exact ⟨x, rfl⟩

end

section
variable {mem : Memory} {p : StructPbuf} {ps : List StructPbuf}

theorem udpInput_recv_iff {s : UdpState} {data : IpData} {callback n : Nat} {r : List StructPbuf} {addr : BitVec 32}
    {port : BitVec 16} :
    (udpInput mem s data (p :: ps)).2 = .recv callback n r addr port ↔
      8 ≤ p.len ∧ (load16 mem (p.payload + 6) = 0#16 ∨
          inetChksumPseudo mem (p :: ps) ipProtoUdp (BitVec.ofNat 16 p.totLen) data.src data.dest = 0#16) ∧
        data.src = addr ∧ lwipHtons (load16 mem p.payload) = port ∧
        (∃ pcb, udpPcbFor data (lwipHtons (load16 mem p.payload)) (lwipHtons (load16 mem (p.payload + 2))) s.udpPcbs =
          some pcb ∧ pcb.recv = some callback ∧ pcb.pcb = n) ∧
        ∃ q, pbufRemoveHeader p 8 = some q ∧ q :: ps = r := by
  rw [udpInput, udpPcbFor]
  by_cases hlen : p.len < udpHlen
  · have hshort : ¬8 ≤ p.len := Nat.not_le.mpr hlen
    simp [hlen, hshort]
  · have hlong : 8 ≤ p.len := Nat.le_of_not_lt hlen
    rw [if_neg hlen, and_iff_right hlong]
    dsimp only
    generalize (udpInputLoop data (ip4AddrIsbroadcast data.dest data.currentNetif) (lwipHtons (load16 mem p.payload))
      (lwipHtons (load16 mem (p.payload + 2))) s.udpPcbs none).1.or _ = found
    by_cases hchk : load16 mem (p.payload + 6) = 0#16 ∨
        inetChksumPseudo mem (p :: ps) ipProtoUdp (BitVec.ofNat 16 p.totLen) data.src data.dest = 0#16
    · rw [and_iff_right hchk, if_neg (not_and_or.mpr (hchk.imp not_not_intro not_not_intro)),
        show udpHlen = 8 from rfl]
      cases found with
      | none =>
        cases pbufRemoveHeader p 8 <;> cases data.currentInputNetif.ipAddr == data.dest <;> simp
      | some pcb =>
        rw [Option.isSome_some, Bool.true_or, if_pos rfl]
        cases pbufRemoveHeader p 8 with
        | none => simp
        | some q =>
          cases hrecv : pcb.recv with
          | none => simp [hrecv]
          | some callback' =>
            simp only [hrecv, UdpInput.recv.injEq, Option.some.injEq, exists_eq_left']
            constructor
            · rintro ⟨hcallback, hn, hr, haddr, hport⟩
              exact ⟨haddr, hport, ⟨hcallback, hn⟩, hr⟩
            · rintro ⟨haddr, hport, ⟨hcallback, hn⟩, hr⟩
              exact ⟨hcallback, hn, hr, haddr, hport⟩
    · rw [if_pos (not_or.mp hchk)]
      simp [hchk]

end

/-! ### UDP datagrams -/

@[simp] theorem length_udpHeader (src dest len chksum : BitVec 16) : (udpHeader src dest len chksum).length = 8 := rfl

theorem udpHeader_fields {mem : Memory} {a : Nat} {src dest len chksum : BitVec 16}
    (h : read mem a 8 = udpHeader src dest len chksum) :
    load16 mem a = lwipHtons src ∧ load16 mem (a + 2) = lwipHtons dest ∧ load16 mem (a + 6) = chksum := by
  obtain ⟨h₀, h⟩ := (@read_eq_append_iff mem a 2 6 _ _ rfl).mp h
  obtain ⟨h₂, h⟩ := (@read_eq_append_iff mem (a + 2) 2 4 _ _ rfl).mp h
  obtain ⟨-, h₆⟩ := (@read_eq_append_iff mem (a + 4) 2 2 _ _ rfl).mp h
  exact ⟨load16_eq_of_read h₀, load16_eq_of_read h₂, load16_eq_of_read h₆⟩

/-- Eight bytes as a UDP header. -/
theorem read_udpHeader (mem : Memory) (a : Nat) :
    read mem a 8 = udpHeader (lwipHtons (load16 mem a)) (lwipHtons (load16 mem (a + 2))) (lwipHtons (load16 mem (a + 4)))
      (load16 mem (a + 6)) := by
  rw [udpHeader, lwipHtons_lwipHtons, lwipHtons_lwipHtons, lwipHtons_lwipHtons, bytes16_load16, bytes16_load16,
    bytes16_load16, bytes16_load16]
  rfl

theorem ChainOk.short {p : List StructPbuf} (h : ChainOk p) : ShortPbufs p := h.len_lt

theorem proto_mem_pseudoHeader (protoLen : BitVec 16) (src dest : BitVec 32) (bs : List Byte) :
    ipProtoUdp ∈ pseudoHeader ipProtoUdp protoLen src dest ++ bs := by
  simp [pseudoHeader]

/-- A callback is called for a chain that holds a datagram for its PCB, with the payload of the datagram. -/
theorem udpInput_payload_iff {mem : Memory} {udp : UdpState} {data : IpData} {p : StructPbuf} {ps : List StructPbuf}
    {callback n : Nat} {bs : List Byte} {addr : BitVec 32} {port : BitVec 16} (hok : ChainOk (p :: ps)) :
    (∃ r, (udpInput mem udp data (p :: ps)).2 = .recv callback n r addr port ∧ packet mem r = bs) ↔
      8 ≤ p.len ∧ data.src = addr ∧ ∃ destPort len chksum,
        packet mem (p :: ps) = udpHeader port destPort len chksum ++ bs ∧
        (chksum = 0#16 ∨ 65535 ∣ leNat (pseudoHeader ipProtoUdp (BitVec.ofNat 16 (8 + bs.length)) data.src data.dest ++
          (udpHeader port destPort len chksum ++ bs))) ∧
        ∃ pcb, udpPcbFor data port destPort udp.udpPcbs = some pcb ∧ pcb.recv = some callback ∧ pcb.pcb = n := by
  have hchk {w : BitVec 16} : inetChksumPseudo mem (p :: ps) ipProtoUdp w data.src data.dest = 0#16 ↔
      65535 ∣ leNat (pseudoHeader ipProtoUdp w data.src data.dest ++ packet mem (p :: ps)) := by
    rw [inetChksumPseudo_eq_zero_iff hok.short]
    exact and_iff_right (leNat_ne_zero_of_mem (proto_mem_pseudoHeader _ _ _ _) (by decide))
  have htot {ds : List Byte} (hsplit : packet mem (p :: ps) = ds ++ bs) (hds : ds.length = 8) :
      p.totLen = 8 + bs.length := by
    rw [hok.totLen_eq, ← packetLen_cons, ← length_packet mem, hsplit, List.length_append, hds]
  simp only [udpInput_recv_iff]
  constructor
  · rintro ⟨r, ⟨hlen, hsum, haddr, rfl, hpcb, q, hq, rfl⟩, rfl⟩
    obtain ⟨q', hq', hsplit, -⟩ := packet_removeHeader mem hok hlen
    obtain rfl := Option.some.inj (hq.symm.trans hq')
    have hlength := htot hsplit (length_read _ _ _)
    rw [read_udpHeader] at hsplit
    refine ⟨hlen, haddr, _, _, _, hsplit, hsum.imp_right fun hzero => ?_, hpcb⟩
    rw [← hlength, ← hsplit]
    exact hchk.mp hzero
  · rintro ⟨hlen, haddr, destPort, len, chksum, hpacket, hsum, hpcb⟩
    obtain ⟨q, hq, hsplit, -⟩ := packet_removeHeader mem hok hlen
    have hread := read_of_packet hpacket (by rw [length_udpHeader]; exact hlen)
    obtain ⟨hsrc, hdest, hfield⟩ := udpHeader_fields hread
    rw [← length_udpHeader port destPort len chksum, hread, hpacket] at hsplit
    refine ⟨q :: ps, ⟨hlen, ?_, haddr, ?_, ?_, q, hq, rfl⟩, (List.append_cancel_left hsplit).symm⟩
    · rw [hfield, htot hpacket (length_udpHeader _ _ _ _), hchk, hpacket]
      exact hsum
    · rw [hsrc, lwipHtons_lwipHtons]
    · rw [hsrc, hdest, lwipHtons_lwipHtons, lwipHtons_lwipHtons]
      exact hpcb

/-! ### The frames of one format -/

/-- A frame that carries a whole UDP datagram, in its parts. The checksums are right if the parts that they cover are
    multiples of 65535, as numbers. -/
structure UdpFrame where
  /-- The hardware addresses -/
  hw : List Byte
  /-- The IP header, with its options -/
  ip : List Byte
  srcPort : BitVec 16
  destPort : BitVec 16
  len : BitVec 16
  chksum : BitVec 16
  payload : List Byte
  hw_length : hw.length = 12
  version : iphV (ofBytes ip) 0 = 4#8
  ip_length : iphHlBytes (ofBytes ip) 0 = ip.length
  length_ge : 20 ≤ ip.length
  total_length : iphLen (ofBytes ip) 0 = ip.length + (8 + payload.length)
  offset : iphOffset (ofBytes ip) 0 &&& lwipHtons 0x3fff#16 = 0#16
  proto : iphProto (ofBytes ip) 0 = ipProtoUdp
  ipChksum : 65535 ∣ leNat ip
  udpChksum : chksum = 0#16 ∨ 65535 ∣ leNat (pseudoHeader ipProtoUdp (BitVec.ofNat 16 (8 + payload.length))
    (iphSrc (ofBytes ip) 0) (iphDest (ofBytes ip) 0) ++ (udpHeader srcPort destPort len chksum ++ payload))

def UdpFrame.src (f : UdpFrame) : BitVec 32 := iphSrc (ofBytes f.ip) 0

def UdpFrame.dest (f : UdpFrame) : BitVec 32 := iphDest (ofBytes f.ip) 0

/-- The bytes of a frame, in the order in which they are sent. -/
def UdpFrame.bytes (f : UdpFrame) : List Byte :=
  f.hw ++ (bytes16 (lwipHtons ethtypeIp) ++ (f.ip ++ (udpHeader f.srcPort f.destPort f.len f.chksum ++ f.payload)))

/-- The length of all headers. -/
def UdpFrame.headers (f : UdpFrame) : Nat := 14 + (f.ip.length + 8)

theorem UdpFrame.length_bytes (f : UdpFrame) : f.bytes.length = f.headers + f.payload.length := by
  rw [UdpFrame.bytes, UdpFrame.headers, List.length_append, List.length_append, List.length_append, List.length_append,
    f.hw_length, length_bytes16, length_udpHeader]
  omega

/-- The PCB that a frame is for. -/
def UdpFrame.pcb (f : UdpFrame) (netifList : List Netif) (inp : Netif) (udpPcbs : List UdpPcb) : Option UdpPcb :=
  (routed netifList inp f.src f.dest (f.destPort == 68#16)).bind fun netif =>
    udpPcbFor ⟨netif, inp, f.src, f.dest, f.ip.length⟩ f.srcPort f.destPort udpPcbs

/-- The stack calls a callback for the frame in `p`, with a chain that holds the payload `bs`. -/
def Delivered (netifList : List Netif) (s : Ip4State) (p : List StructPbuf) (inp : Netif) (udp : UdpState)
    (callback n : Nat) (bs : List Byte) (addr : BitVec 32) (port : BitVec 16) : Prop :=
  ∃ q data u r, ethernetInput s.mem p inp = .ip q ∧
    (ip4Input netifList s q inp).2.2 = .upper ipProtoUdp data u ∧
    (udpInput (ip4Input netifList s q inp).1.mem udp data u).2 = .recv callback n r addr port ∧
    packet (ip4Input netifList s q inp).1.mem r = bs

/-- The frame in a chain carries a fragment. -/
def CarriesFragment (mem : Memory) (p : StructPbuf) : Prop :=
  34 ≤ p.len ∧ load16 mem (p.payload + 12) = lwipHtons ethtypeIp ∧ isFragment mem (p.payload + 14) = true

section
variable {netifList : List Netif} {s : Ip4State} {inp : Netif} {udp : UdpState} {p : StructPbuf} {ps : List StructPbuf}
  {callback n : Nat}

theorem iphHlBytes_le (mem : Memory) (a : Nat) : iphHlBytes mem a ≤ 60 := by
  rw [iphHlBytes, BitVec.toNat_and]
  have hle := @Nat.and_le_right (mem a).toNat (0x0f#8).toNat
  have hmask : (0x0f#8).toNat = 15 := rfl
  omega

theorem lwipHtons_inj {v w : BitVec 16} : lwipHtons v = lwipHtons w ↔ v = w :=
  ⟨fun h => by rw [← lwipHtons_lwipHtons v, h, lwipHtons_lwipHtons], fun h => congrArg lwipHtons h⟩

/-- The IP header of a frame in memory. -/
theorem UdpFrame.fields (f : UdpFrame) {mem : Memory} {a : Nat} (h : read mem a f.ip.length = f.ip) :
    iphV mem a = 4#8 ∧ iphHlBytes mem a = f.ip.length ∧ iphLen mem a = f.ip.length + (8 + f.payload.length) ∧
      iphOffset mem a &&& lwipHtons 0x3fff#16 = 0#16 ∧ iphProto mem a = ipProtoUdp ∧ iphSrc mem a = f.src ∧
      iphDest mem a = f.dest ∧ inetChksum mem a f.ip.length = 0#16 := by
  have hlen := f.ip_length ▸ iphHlBytes_le (ofBytes f.ip) 0
  have hcopy : ∀ k < 20, mem (a + k) = ofBytes f.ip (0 + k) := fun k hk =>
    ofBytes_eq_of_read h (Nat.lt_of_lt_of_le hk f.length_ge)
  obtain ⟨hv, hhl, hl, ho, hp, hs, hd⟩ := iph_congr hcopy
  refine ⟨hv.trans f.version, hhl.trans f.ip_length, hl.trans f.total_length, ?_, hp.trans f.proto, hs, hd, ?_⟩
  · rw [ho, f.offset]
  · have hge := f.length_ge
    have hmem : f.ip[0] ∈ f.ip := List.getElem_mem _
    have hbyte : ofBytes f.ip 0 = f.ip[0] := by
      rw [ofBytes, List.getD_eq_getElem?_getD, List.getElem?_eq_getElem (by omega)]
      rfl
    have hne : f.ip[0] ≠ 0#8 := fun hzero => by
      have hversion := f.version
      rw [iphV, hbyte, hzero] at hversion
      exact absurd hversion (by decide)
    rw [inetChksum_eq_zero_iff (by omega), h]
    exact ⟨leNat_ne_zero_of_mem hmem hne, f.ipChksum⟩

/-- A frame that is for a PCB reaches its callback, with its payload. -/
theorem delivered_of_frame (f : UdpFrame) (hok : ChainOk (p :: ps)) {pad : List Byte}
    (hpacket : packet s.mem (p :: ps) = f.bytes ++ pad) (hfirst : f.headers ≤ p.len) (hetharp : inp.etharp = true)
    {pcb : UdpPcb} (hpcb : f.pcb netifList inp udp.udpPcbs = some pcb) (hrecv : pcb.recv = some callback) :
    Delivered netifList s (p :: ps) inp udp callback pcb.pcb f.payload f.src f.srcPort := by
  rw [UdpFrame.headers] at hfirst
  -- ethernet_input
  obtain ⟨q, hq, hsplit, hokq, hqpayload, hqlen⟩ := packet_removeHeader s.mem hok (show 14 ≤ p.len by omega)
  rw [UdpFrame.bytes, List.append_assoc, List.append_assoc, List.append_assoc, List.append_assoc, ← List.append_assoc]
    at hpacket
  have heth : (f.hw ++ bytes16 (lwipHtons ethtypeIp)).length = 14 := by
    rw [List.length_append, f.hw_length, length_bytes16]
  have hread := read_of_packet hpacket (by omega)
  rw [heth] at hread
  have htype := load16_eq_of_read ((@read_eq_append_iff s.mem p.payload 12 2 _ _ f.hw_length).mp hread).2
  rw [hpacket, hread] at hsplit
  have hip := (List.append_cancel_left hsplit).symm
  -- ip4_input
  have hread := read_of_packet hip (by omega)
  obtain ⟨hv, hhl, hl, ho, hp, hs, hd, hchk⟩ := f.fields hread
  obtain ⟨hcut, hokcut⟩ := pbufRealloc_spec s.mem hokq (f.ip.length + (8 + f.payload.length))
  obtain ⟨t, ts, ht, htpayload, htlen, -⟩ := pbufRealloc_cons q ps (f.ip.length + (8 + f.payload.length))
  rw [ht, hip] at hcut
  rw [ht] at hokcut
  have htrimmed : packet s.mem (t :: ts) =
      f.ip ++ (udpHeader f.srcPort f.destPort f.len f.chksum ++ f.payload) := by
    rw [hcut, ← List.append_assoc (udpHeader _ _ _ _), ← List.append_assoc f.ip]
    exact List.take_left' (by rw [List.length_append, List.length_append, length_udpHeader])
  have httot : t.totLen = f.ip.length + (8 + f.payload.length) := by
    rw [hokcut.totLen_eq, ← packetLen_cons, ← length_packet s.mem, htrimmed, List.length_append, List.length_append,
      length_udpHeader]
  obtain ⟨u, hu, hsplit, hoku, hupayload, hulen⟩ := packet_removeHeader s.mem hokcut (show f.ip.length ≤ t.len by omega)
  rw [htpayload, hread, htrimmed] at hsplit
  have hudp := (List.append_cancel_left hsplit).symm
  -- udp_input
  have hread := read_of_packet hudp (by rw [length_udpHeader]; omega)
  obtain ⟨-, hdest, -⟩ := udpHeader_fields hread
  rw [UdpFrame.pcb, Option.bind_eq_some_iff] at hpcb
  obtain ⟨netif, hrouted, hpcb⟩ := hpcb
  have hdhcp : ip4AcceptDhcp s.mem t.payload f.ip.length = (f.destPort == 68#16) := by
    rw [ip4AcceptDhcp, htpayload, hp, ← htpayload, ← hupayload, hdest, beq_self_eq_true, Bool.true_and, Bool.eq_iff_iff,
      beq_iff_eq, beq_iff_eq, lwipHtons_inj]
  have hchecked : ip4InputPacket netifList s.mem (q :: ps) inp =
      some ⟨netif, f.src, f.dest, f.ip.length, t, ts⟩ := by
    rw [ip4InputPacket_eq_some_iff, hhl, hl]
    refine ⟨hv, f.length_ge, t, ts, ht, by omega, Nat.le_of_eq httot.symm, ?_⟩
    rw [ip4InputChecked_eq_some_iff, hdhcp, htpayload, hs, hd]
    exact ⟨hchk, netif, hrouted, rfl⟩
  have hwhole : isFragment s.mem t.payload = false := by
    rw [htpayload, isFragment, ho, bne_self_eq_false]
  have hinput := ip4Input_of_whole hchecked hwhole
  obtain ⟨r, hreceived⟩ := (@udpInput_payload_iff s.mem udp ⟨netif, inp, f.src, f.dest, f.ip.length⟩ u ts callback pcb.pcb
    f.payload f.src f.srcPort hoku).mpr
      ⟨by omega, rfl, f.destPort, f.len, f.chksum, hudp, f.udpChksum, pcb, hpcb, hrecv, rfl⟩
  refine ⟨q :: ps, ⟨netif, inp, f.src, f.dest, f.ip.length⟩, u :: ts, r, ?_, ?_, ?_⟩
  · rw [ethernetInput_ip_iff]
    exact ⟨by omega, htype, hetharp, q, hq, rfl⟩
  · rw [hinput, ip4InputUpper, htpayload, hp, hhl, hu]
    rfl
  · rw [hinput]
    exact hreceived

/-- A frame from its headers in memory. -/
theorem exists_udpFrame {mem : Memory} {a b hlen : Nat} {bs : List Byte} {srcPort destPort len chksum : BitVec 16}
    (hv : iphV mem b = 4#8) (hhl : iphHlBytes mem b = hlen) (hge : 20 ≤ hlen) (hl : iphLen mem b = hlen + (8 + bs.length))
    (hoffset : iphOffset mem b &&& lwipHtons 0x3fff#16 = 0#16) (hproto : iphProto mem b = ipProtoUdp)
    (hchk : inetChksum mem b hlen = 0#16)
    (hsum : chksum = 0#16 ∨ 65535 ∣ leNat (pseudoHeader ipProtoUdp (BitVec.ofNat 16 (8 + bs.length))
      (iphSrc mem b) (iphDest mem b) ++ (udpHeader srcPort destPort len chksum ++ bs))) :
    ∃ f : UdpFrame, f.bytes = read mem a 12 ++ (bytes16 (lwipHtons ethtypeIp) ++
        (read mem b hlen ++ (udpHeader srcPort destPort len chksum ++ bs))) ∧
      f.ip.length = hlen ∧ f.src = iphSrc mem b ∧ f.dest = iphDest mem b ∧ f.srcPort = srcPort ∧ f.destPort = destPort ∧
      f.payload = bs := by
  have hle := hhl ▸ iphHlBytes_le mem b
  have hcopy : ∀ k < 20, mem (b + k) = ofBytes (read mem b hlen) (0 + k) := fun k hk =>
    ofBytes_eq_of_read (by rw [length_read]) (by rw [length_read]; omega)
  obtain ⟨cv, chl, cl, co, cp, cs, cd⟩ := iph_congr hcopy
  have hdvd := ((inetChksum_eq_zero_iff (by omega)).mp hchk).2
  rw [cv] at hv
  rw [chl] at hhl
  rw [cl] at hl
  rw [co] at hoffset
  rw [cp] at hproto
  rw [cs, cd] at hsum
  rw [cs, cd]
  exact ⟨⟨read mem a 12, read mem b hlen, srcPort, destPort, len, chksum, bs, length_read _ _ _, hv,
    by rw [hhl, length_read], by rw [length_read]; exact hge, by rw [hl, length_read], hoffset, hproto, hdvd, hsum⟩,
    rfl, length_read _ _ _, rfl, rfl, rfl, rfl, rfl⟩

/-- What reaches a callback comes from a frame that is for its PCB. -/
theorem frame_of_delivered (hok : ChainOk (p :: ps)) (hwhole : ¬CarriesFragment s.mem p) {bs : List Byte}
    {addr : BitVec 32} {port : BitVec 16} (h : Delivered netifList s (p :: ps) inp udp callback n bs addr port) :
    inp.etharp = true ∧ ∃ f : UdpFrame, (∃ pad, packet s.mem (p :: ps) = f.bytes ++ pad) ∧ f.headers ≤ p.len ∧
      f.src = addr ∧ f.srcPort = port ∧ f.payload = bs ∧
      ∃ pcb, f.pcb netifList inp udp.udpPcbs = some pcb ∧ pcb.recv = some callback ∧ pcb.pcb = n := by
  obtain ⟨q₁, data, q₂, r, hframe, hupper, hreceived⟩ := h
  obtain ⟨hlong, htype, hetharp, q, hq, rfl⟩ := ethernetInput_ip_iff.mp hframe
  obtain ⟨x, hx⟩ := exists_packet_of_upper hupper
  obtain ⟨q', hq', hethsplit, hokq, hqpayload, hqlen⟩ := packet_removeHeader s.mem hok (Nat.le_of_lt hlong)
  obtain rfl := Option.some.inj (hq.symm.trans hq')
  obtain ⟨hv, hge, t, ts, ht, hhl, hl, hchecked⟩ := ip4InputPacket_eq_some_iff.mp hx
  obtain ⟨t', ts', ht', htpayload, -, htlen⟩ := pbufRealloc_cons q ps (iphLen s.mem q.payload)
  obtain ⟨rfl, rfl⟩ := List.cons_eq_cons.mp (ht.symm.trans ht')
  obtain ⟨hcut, hokt⟩ := pbufRealloc_spec s.mem hokq (iphLen s.mem q.payload)
  rw [ht] at hcut hokt
  obtain ⟨u, hu, hipsplit, hoku, hupayload, hulen⟩ := packet_removeHeader s.mem hokt hhl
  obtain ⟨hchk, netif, hrouted, rfl⟩ := ip4InputChecked_eq_some_iff.mp hchecked
  have hfragment : isFragment s.mem q.payload = false :=
    Bool.eq_false_of_not_eq_true fun htrue => hwhole ⟨by omega, htype, hqpayload ▸ htrue⟩
  have hoff : iphOffset s.mem q.payload &&& lwipHtons 0x3fff#16 = 0#16 := bne_eq_false_iff_eq.mp hfragment
  have hinput := ip4Input_of_whole hx (htpayload ▸ hfragment)
  rw [hinput] at hupper hreceived
  obtain ⟨hproto, hdata, hq₂⟩ := Ip4Input.upper.inj hupper
  obtain rfl := hdata
  rw [hu, Option.getD_some] at hq₂
  obtain rfl := hq₂
  obtain ⟨hlen, haddr, destPort, len, chksum, hudp, hsum, pcb, hpcb, hrecv, hn⟩ :=
    (udpInput_payload_iff hoku).mp ⟨r, hreceived⟩
  have hread := read_of_packet hudp (by rw [length_udpHeader]; exact hlen)
  obtain ⟨-, hdest, -⟩ := udpHeader_fields hread
  rw [htpayload] at hchk hproto hrouted hpcb hipsplit hupayload haddr hsum
  have htlength : iphLen s.mem q.payload = iphHlBytes s.mem q.payload + (8 + bs.length) := by
    have hcutlen : (packet s.mem (t :: ts)).length ≤ iphLen s.mem q.payload := by
      rw [hcut, List.length_take]
      exact Nat.min_le_left _ _
    have htotlen : t.totLen = (packet s.mem (t :: ts)).length := by
      rw [hokt.totLen_eq, ← packetLen_cons, length_packet]
    have hsplitlen : (packet s.mem (t :: ts)).length = iphHlBytes s.mem q.payload + (8 + bs.length) := by
      rw [hipsplit, hudp, List.length_append, List.length_append, length_read, length_udpHeader]
    omega
  obtain ⟨f, hbytes, hflen, hfsrc, hfdest, hfport, hfdport, hfpayload⟩ :=
    @exists_udpFrame s.mem p.payload q.payload _ bs port destPort len chksum hv rfl hge htlength hoff hproto hchk hsum
  refine ⟨hetharp, f, ⟨(packet s.mem (q :: ps)).drop (iphLen s.mem q.payload), ?_⟩, ?_, hfsrc.trans haddr, hfport,
    hfpayload, pcb, ?_, hrecv, hn⟩
  · have heth : read s.mem p.payload 14 = read s.mem p.payload 12 ++ bytes16 (lwipHtons ethtypeIp) := by
      rw [← htype, bytes16_load16]
      exact read_add s.mem p.payload 12 2
    rw [hethsplit, heth, hbytes, ← hudp, ← hipsplit, hcut, List.append_assoc, List.append_assoc, List.append_assoc,
      List.take_append_drop]
  · rw [UdpFrame.headers, hflen]
    omega
  · rw [UdpFrame.pcb, Option.bind_eq_some_iff, hfsrc, hfdest, hfport, hfdport, hflen]
    refine ⟨netif, ?_, hpcb⟩
    have hdhcp : ip4AcceptDhcp s.mem q.payload (iphHlBytes s.mem q.payload) = (destPort == 68#16) := by
      rw [ip4AcceptDhcp, hproto, ← hupayload, hdest, beq_self_eq_true, Bool.true_and, Bool.eq_iff_iff, beq_iff_eq,
        beq_iff_eq, lwipHtons_inj]
    rw [← hdhcp]
    exact hrouted

/-- For a chain that is no fragment, a callback is called for the frames of that format, however they are cut into pbufs and
    whatever lies behind them, if the first pbuf holds the headers. -/
theorem delivered_iff (hok : ChainOk (p :: ps)) (hwhole : ¬CarriesFragment s.mem p) {addr : BitVec 32}
    {port : BitVec 16} {bs : List Byte} :
    Delivered netifList s (p :: ps) inp udp callback n bs addr port ↔
      inp.etharp = true ∧ ∃ f : UdpFrame, (∃ pad, packet s.mem (p :: ps) = f.bytes ++ pad) ∧ f.headers ≤ p.len ∧
        f.src = addr ∧ f.srcPort = port ∧ f.payload = bs ∧
        ∃ pcb, f.pcb netifList inp udp.udpPcbs = some pcb ∧ pcb.recv = some callback ∧ pcb.pcb = n := by
  constructor
  · exact frame_of_delivered hok hwhole
  · rintro ⟨hetharp, f, ⟨pad, hpacket⟩, hfirst, rfl, rfl, rfl, pcb, hpcb, hrecv, rfl⟩
    exact delivered_of_frame f hok hpacket hfirst hetharp hpcb hrecv

end

/-- Three bytes from port 200 of 192.168.1.10 to port 101 of 192.168.1.11 -/
def lanFrame : List Byte :=
  [2, 0, 0, 0, 0, 11, 2, 0, 0, 0, 0, 10, 8, 0, 0x45, 0, 0, 0x1F, 0, 5, 0, 0, 0xFF, 0x11, 0x38, 0x63, 0xC0, 0xA8, 1, 10,
    0xC0, 0xA8, 1, 11, 0, 0xC8, 0, 0x65, 0, 0x0B, 0x77, 0x43, 1, 2, 3]

/-- The frame in two pbufs, with a byte behind it -/
theorem delivered_iff_lan :
    ∃ f : UdpFrame, (∃ pad, packet (ofBytes (lanFrame ++ [0xEE])) [⟨0, 46, 43, .pool, 0⟩, ⟨43, 3, 3, .pool, 0⟩] =
      f.bytes ++ pad) ∧ f.payload = [1, 2, 3] := by
  have hok : ChainOk [⟨0, 46, 43, .pool, 0⟩, ⟨43, 3, 3, .pool, 0⟩] := ⟨⟨rfl, rfl, trivial⟩, by decide⟩
  have hwhole : ¬CarriesFragment (ofBytes (lanFrame ++ [0xEE])) ⟨0, 46, 43, .pool, 0⟩ := fun h => nomatch h.2.2
  have hinput := @ip4Input_of_whole [lanNetif 11] ⟨ofBytes (lanFrame ++ [0xEE]), [], 0⟩ (lanNetif 11)
    ⟨lanNetif 11, (lanNetif 10).ipAddr, (lanNetif 11).ipAddr, 20, ⟨14, 31, 29, .pool, 0⟩, [⟨43, 2, 2, .pool, 0⟩]⟩
    [⟨14, 32, 29, .pool, 0⟩, ⟨43, 3, 3, .pool, 0⟩] rfl rfl
  have hdelivered : Delivered [lanNetif 11] ⟨ofBytes (lanFrame ++ [0xEE]), [], 0⟩
      [⟨0, 46, 43, .pool, 0⟩, ⟨43, 3, 3, .pool, 0⟩] (lanNetif 11)
      ⟨[{ udpNew 7 with localPort := 101#16, recv := some 1 }], 0xc000#16⟩ 1 7 [1, 2, 3] (lanNetif 10).ipAddr
      200#16 := by
    refine ⟨[⟨14, 32, 29, .pool, 0⟩, ⟨43, 3, 3, .pool, 0⟩], ⟨lanNetif 11, lanNetif 11, (lanNetif 10).ipAddr,
      (lanNetif 11).ipAddr, 20⟩, [⟨34, 11, 9, .pool, 0⟩, ⟨43, 2, 2, .pool, 0⟩],
      [⟨42, 3, 1, .pool, 0⟩, ⟨43, 2, 2, .pool, 0⟩], rfl, ?_⟩
    rw [hinput]
    exact ⟨rfl, rfl, rfl⟩
  obtain ⟨-, f, hpacket, -, -, -, hpayload, -⟩ :=
    (delivered_iff (s := ⟨ofBytes (lanFrame ++ [0xEE]), [], 0⟩) hok hwhole).mp hdelivered
  exact ⟨f, hpacket, hpayload⟩

end YlsFirmware
