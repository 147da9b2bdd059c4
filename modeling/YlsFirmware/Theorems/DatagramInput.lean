import YlsFirmware.Theorems.Reception

/-! # Datagrams from fragments

The chain that `ip4_reass` makes of the fragments of a datagram holds the stored header and the data of the fragments
in their order. The fragment that completes a datagram leads to the callback that the datagram is for. -/

namespace YlsFirmware
open Packed OnesComplement

/-! ### Fragments in a row -/

/-- A fragment whose IP header lies in its first pbuf -/
structure FragmentChain (r : List StructPbuf) : Prop where
  ok : ChainOk r
  header : ∃ q qs, r = q :: qs ∧ ipHlen ≤ q.len

theorem FragmentChain.hideHeader (mem : Memory) {r : List StructPbuf} (h : FragmentChain r) :
    packet mem (ipReassHideHeader r) = (packet mem r).drop ipHlen ∧ ChainOk (ipReassHideHeader r) ∧
      packetLen (ipReassHideHeader r) ≤ packetLen r := by
  obtain ⟨q, qs, rfl, hlen⟩ := h.header
  obtain ⟨q', hq', hsplit, hok, -, hlen'⟩ := packet_removeHeader mem h.ok hlen
  rw [ipReassHideHeader, hq', Option.getD_some]
  refine ⟨?_, hok, ?_⟩
  · rw [hsplit, List.drop_left' (length_read _ _ _)]
  · rw [packetLen_cons, packetLen_cons, hlen']
    omega

/-- The data of the fragments of a datagram, without their headers -/
def fragmentData (mem : Memory) (rs : List (List StructPbuf)) : List Byte :=
  rs.flatMap fun r => (packet mem r).drop ipHlen

theorem foldl_pbufCat (mem : Memory) {rs : List (List StructPbuf)} {p : StructPbuf} {ps : List StructPbuf}
    (hok : ChainOk (p :: ps)) (hrs : ∀ r ∈ rs, FragmentChain r)
    (hlt : packetLen (p :: ps) + (rs.map packetLen).sum < 2 ^ 16) :
    ∃ q qs, rs.foldl (fun p r => pbufCat p (ipReassHideHeader r)) (p :: ps) = q :: qs ∧ ChainOk (q :: qs) ∧
      packet mem (q :: qs) = packet mem (p :: ps) ++ fragmentData mem rs ∧ q.payload = p.payload ∧ q.len = p.len := by
  induction rs generalizing p ps with
  | nil => exact ⟨p, ps, rfl, hok, (List.append_nil _).symm, rfl, rfl⟩
  | cons r rs ih =>
    obtain ⟨hdata, hokr, hle⟩ := (hrs r List.mem_cons_self).hideHeader mem
    rw [List.map_cons, List.sum_cons] at hlt
    have hcat : packetLen (pbufCat (p :: ps) (ipReassHideHeader r)) + (rs.map packetLen).sum < 2 ^ 16 := by
      rw [packetLen_pbufCat]
      omega
    obtain ⟨q, qs, hfold, hokq, hq, hpayload, hlen⟩ :=
      ih (hok.cat hokr (by omega)) (fun r hr => hrs r (List.mem_cons_of_mem _ hr)) hcat
    refine ⟨q, qs, hfold, hokq, hq.trans ?_, hpayload, hlen⟩
    calc packet mem (pbufCat (p :: ps) (ipReassHideHeader r)) ++ fragmentData mem rs
        = packet mem (p :: ps) ++ (packet mem r).drop ipHlen ++ fragmentData mem rs := by rw [packet_pbufCat, hdata]
      _ = packet mem (p :: ps) ++ fragmentData mem (r :: rs) := by
        rw [fragmentData, fragmentData, List.flatMap_cons, List.append_assoc]

/-! ### The datagram -/

/-- The fragments of a datagram in memory. The header that is written in front of the first one runs over nothing else. -/
structure Queued (ipr : IpReassdata (List StructPbuf)) (first : StructPbuf) (rest : List StructPbuf)
    (rs : List (List StructPbuf)) : Prop where
  chains : ipr.p.map (fun h => h.p) = (first :: rest) :: rs
  fragments : ∀ r ∈ (first :: rest) :: rs, FragmentChain r
  beside : ∀ r ∈ rest :: rs, ∀ q ∈ r, q.payload + q.len ≤ first.payload ∨ first.payload + ipHlen ≤ q.payload
  lt : (((first :: rest) :: rs).map packetLen).sum < 2 ^ 16
  iphdr_length : ipr.iphdr.length = ipHlen

section
variable {mem : Memory} {ipr : IpReassdata (List StructPbuf)} {first : StructPbuf} {rest : List StructPbuf}
  {rs : List (List StructPbuf)}

theorem Queued.header (h : Queued ipr first rest rs) : ipHlen ≤ first.len := by
  obtain ⟨q, qs, hcons, hlen⟩ := (h.fragments _ List.mem_cons_self).header
  obtain ⟨rfl, -⟩ := List.cons_eq_cons.mp hcons
  exact hlen

/-- What `ip4_reass` writes to memory: the stored header with another length, offset and checksum. -/
theorem ip4ReassDatagram_eq (h : Queued ipr first rest rs) :
    ∃ mem', ip4ReassDatagram mem ipr = (mem', rs.foldl (fun p r => pbufCat p (ipReassHideHeader r)) (first :: rest)) ∧
      ∀ i, (∀ k ∈ [2, 6, 10], ¬(first.payload + k ≤ i ∧ i < first.payload + k + 2)) →
        mem' i = write mem first.payload ipr.iphdr i := by
  rw [ip4ReassDatagram, h.chains]
  refine ⟨_, rfl, fun i hi => ?_⟩
  have hlen := hi 2 (by decide)
  have hoffset := hi 6 (by decide)
  have hchksum := hi 10 (by decide)
  rw [write_outside hchksum, write_outside hchksum, write_outside hoffset, write_outside hlen]

/-- The datagram that `ip4_reass` returns. -/
theorem packet_ip4ReassDatagram (h : Queued ipr first rest rs) :
    ∃ mem' q qs, ip4ReassDatagram mem ipr = (mem', q :: qs) ∧ ChainOk (q :: qs) ∧ q.len = first.len ∧
      iphProto mem' q.payload = iphProto (ofBytes ipr.iphdr) 0 ∧
      iphHlBytes mem' q.payload = iphHlBytes (ofBytes ipr.iphdr) 0 ∧
      packet mem' (q :: qs) = read mem' q.payload ipHlen ++ fragmentData mem ((first :: rest) :: rs) := by
  obtain ⟨mem', hdatagram, hwritten⟩ := @ip4ReassDatagram_eq mem ipr first rest rs h
  have hiphdr : ipr.iphdr.length = 20 := h.iphdr_length
  have hbeside : ∀ i, ¬(first.payload ≤ i ∧ i < first.payload + ipHlen) → mem' i = mem i := fun i hi => by
    rw [show ipHlen = 20 from rfl] at hi
    rw [hwritten i fun k hk => ?_, write_outside (by omega)]
    simp only [List.mem_cons, List.not_mem_nil, or_false] at hk
    omega
  have hheader : ∀ k ∈ [0, 9], mem' (first.payload + k) = ofBytes ipr.iphdr k := fun k hk => by
    simp only [List.mem_cons, List.not_mem_nil, or_false] at hk
    rw [hwritten _ fun j hj => ?_, write_at (by omega), ofBytes, List.getD_eq_getElem?_getD,
      List.getElem?_eq_getElem (by omega), Option.getD_some]
    simp only [List.mem_cons, List.not_mem_nil, or_false] at hj
    omega
  have hkept : ∀ r, (∀ q ∈ r, q.payload + q.len ≤ first.payload ∨ first.payload + ipHlen ≤ q.payload) →
      packet mem' r = packet mem r := fun r hr =>
    List.flatMap_congr fun q hq => read_eq_read_iff.mpr fun i hi => hbeside _ (by have := hr q hq; omega)
  have hok := (h.fragments _ List.mem_cons_self).ok
  have hlt := h.lt
  rw [List.map_cons, List.sum_cons] at hlt
  obtain ⟨q, qs, hfold, hokq, hq, hpayload, hlen⟩ :=
    foldl_pbufCat mem' hok (fun r hr => h.fragments r (List.mem_cons_of_mem _ hr)) hlt
  obtain ⟨t, ht, hsplit, -, htpayload, htlen⟩ := packet_removeHeader mem hok h.header
  obtain ⟨t', ht', hsplit', -⟩ := packet_removeHeader mem' hok h.header
  obtain rfl := Option.some.inj (ht.symm.trans ht')
  have hfirst : packet mem' (t :: rest) = (packet mem (first :: rest)).drop ipHlen := by
    rw [hsplit, List.drop_left' (length_read _ _ _)]
    refine hkept _ fun r hr => ?_
    rcases List.mem_cons.mp hr with rfl | hr
    · exact .inr (Nat.le_of_eq htpayload.symm)
    · exact h.beside rest List.mem_cons_self r hr
  have hrest : fragmentData mem' rs = fragmentData mem rs := by
    refine List.flatMap_congr fun r hr => ?_
    rw [hkept r (h.beside r (List.mem_cons_of_mem _ hr))]
  refine ⟨mem', q, qs, hdatagram.trans (by rw [hfold]), hokq, hlen, ?_, ?_, ?_⟩
  · rw [hpayload]
    exact hheader 9 (by decide)
  · rw [hpayload, iphHlBytes, iphHlBytes]
    exact congrArg (fun b : Byte => (b &&& 0x0f#8).toNat * 4) (hheader 0 (by decide))
  · rw [hq, hpayload, hsplit', hfirst, fragmentData, fragmentData, List.flatMap_cons, List.append_assoc, ← fragmentData,
      hrest]
    rfl

end

/-! ### Input -/

section
variable {netifList : List Netif} {s : Ip4State} {inp : Netif} {udp : UdpState} {p : List StructPbuf} {x : Ip4Packet}
  {reass : IpReass (List StructPbuf)} {outs : List (IpReassOut (List StructPbuf))} {callback n : Nat} {bs : List Byte}
  {addr : BitVec 32} {port : BitVec 16}

/-- The frame in `p` is taken for the fragment `x`. -/
def ArrivesAsFragment (netifList : List Netif) (mem : Memory) (p : List StructPbuf) (inp : Netif) (x : Ip4Packet) :
    Prop :=
  ∃ q, ethernetInput mem p inp = .ip q ∧ ip4InputPacket netifList mem q inp = some x ∧
    isFragment mem x.p.payload = true

theorem hlen_of_ip4InputPacket {mem : Memory} {q : List StructPbuf}
    (h : ip4InputPacket netifList mem q inp = some x) : x.hlen = iphHlBytes mem x.p.payload := by
  cases q with
  | nil => cases h
  | cons q qs =>
    obtain ⟨-, -, t, ts, ht, -, -, hchecked⟩ := ip4InputPacket_eq_some_iff.mp h
    obtain ⟨t', ts', ht', htpayload, -⟩ := pbufRealloc_cons q qs (iphLen mem q.payload)
    obtain ⟨rfl, rfl⟩ := List.cons_eq_cons.mp (ht.symm.trans ht')
    obtain ⟨-, _, -, rfl⟩ := ip4InputChecked_eq_some_iff.mp hchecked
    rw [htpayload]

theorem hlen_of_ip4Reass {α : Type} {pbufClen : α → Nat} {s : IpReass α} {fraghdr : List Byte} {q : α}
    {ipr : IpReassdata α} (h : (ip4Reass pbufClen s fraghdr q).2.2 = some ipr) :
    iphHlBytes (ofBytes fraghdr) 0 = ipHlen := by
  by_contra hne
  rw [ip4Reass, if_pos hne] at h
  cases h

/-- A fragment that completes nothing leads to no callback. -/
theorem not_delivered_of_incomplete (h : ArrivesAsFragment netifList s.mem p inp x)
    (hreass : ip4Reass List.length s.reass (read s.mem x.p.payload ipHlen) (x.p :: x.ps) = (reass, outs, none)) :
    ¬Delivered netifList s p inp udp callback n bs addr port := by
  obtain ⟨q, hframe, hpacket, hfragment⟩ := h
  rintro ⟨q', data, u, r, hframe', hupper, -⟩
  obtain rfl := EthernetInput.ip.inj (hframe.symm.trans hframe')
  rw [ip4Input, hpacket] at hupper
  dsimp only at hupper
  rw [hfragment, if_pos rfl, hreass] at hupper
  cases hupper

/-- The fragment that completes a datagram leads to a callback exactly if the data of the fragments are a UDP datagram for
    its PCB. The callback gets the payload of that datagram; the addresses are those of this fragment. -/
theorem delivered_datagram_iff (h : ArrivesAsFragment netifList s.mem p inp x) {ipr : IpReassdata (List StructPbuf)}
    (hreass : ip4Reass List.length s.reass (read s.mem x.p.payload ipHlen) (x.p :: x.ps) = (reass, outs, some ipr))
    {first : StructPbuf} {rest : List StructPbuf} {rs : List (List StructPbuf)} (hqueued : Queued ipr first rest rs) :
    Delivered netifList s p inp udp callback n bs addr port ↔
      iphProto (ofBytes ipr.iphdr) 0 = ipProtoUdp ∧ ipHlen + 8 ≤ first.len ∧ x.src = addr ∧ ∃ destPort len chksum,
        fragmentData s.mem ((first :: rest) :: rs) = udpHeader port destPort len chksum ++ bs ∧
        (chksum = 0#16 ∨ 65535 ∣ leNat (pseudoHeader ipProtoUdp (BitVec.ofNat 16 (8 + bs.length)) x.src x.dest ++
          (udpHeader port destPort len chksum ++ bs))) ∧
        ∃ pcb, udpPcbFor ⟨x.netif, inp, x.src, x.dest, iphHlBytes (ofBytes ipr.iphdr) 0⟩ port destPort udp.udpPcbs =
          some pcb ∧ pcb.recv = some callback ∧ pcb.pcb = n := by
  obtain ⟨q, hframe, hpacket, hfragment⟩ := h
  have hhlen : x.hlen = ipHlen := by
    have hcopy : ∀ k < 20, s.mem (x.p.payload + k) = ofBytes (read s.mem x.p.payload ipHlen) (0 + k) := fun k hk =>
      ofBytes_eq_of_read (by rw [length_read]) (by rwa [length_read])
    rw [hlen_of_ip4InputPacket hpacket, (iph_congr hcopy).2.1]
    exact hlen_of_ip4Reass (congrArg (fun r => r.2.2) hreass)
  obtain ⟨mem', c, cs, hdatagram, hok, hclen, hproto, hhl, hbytes⟩ :=
    @packet_ip4ReassDatagram s.mem ipr first rest rs hqueued
  have hheader := hqueued.header
  obtain ⟨u, hu, hsplit, hoku, -, hulen⟩ := packet_removeHeader mem' hok (show ipHlen ≤ c.len by omega)
  have hdata : packet mem' (u :: cs) = fragmentData s.mem ((first :: rest) :: rs) :=
    List.append_cancel_left (hsplit.symm.trans hbytes)
  have hinput : ip4Input netifList s q inp = (⟨mem', reass⟩, outs, .upper (iphProto (ofBytes ipr.iphdr) 0)
      ⟨x.netif, inp, x.src, x.dest, iphHlBytes (ofBytes ipr.iphdr) 0⟩ (u :: cs)) := by
    rw [ip4Input, hpacket]
    dsimp only
    rw [hfragment, if_pos rfl, hreass]
    dsimp only
    rw [hdatagram]
    dsimp only
    rw [ip4InputUpper, hhlen, hu, hproto, hhl]
    rfl
  have hdelivered : Delivered netifList s p inp udp callback n bs addr port ↔
      iphProto (ofBytes ipr.iphdr) 0 = ipProtoUdp ∧ ∃ r, (udpInput mem' udp
        ⟨x.netif, inp, x.src, x.dest, iphHlBytes (ofBytes ipr.iphdr) 0⟩ (u :: cs)).2 = .recv callback n r addr port ∧
        packet mem' r = bs := by
    constructor
    · rintro ⟨q', data, u', r, hframe', hupper, hrecv, hbs⟩
      obtain rfl := EthernetInput.ip.inj (hframe.symm.trans hframe')
      rw [hinput] at hupper hrecv hbs
      obtain ⟨hudp, rfl, rfl⟩ := Ip4Input.upper.inj hupper
      exact ⟨hudp, r, hrecv, hbs⟩
    · rintro ⟨hudp, r, hrecv, hbs⟩
      refine ⟨q, ⟨x.netif, inp, x.src, x.dest, iphHlBytes (ofBytes ipr.iphdr) 0⟩, u :: cs, r, hframe, ?_⟩
      rw [hinput, hudp]
      exact ⟨rfl, hrecv, hbs⟩
  have hlong : 8 ≤ u.len ↔ ipHlen + 8 ≤ first.len := by omega
  rw [hdelivered, udpInput_payload_iff hoku, hdata, hlong]

end

/-- The datagram of `lanFrame` in two fragments, the second frame behind the first -/
def lanFragmentFrames : List Byte :=
  [2, 0, 0, 0, 0, 11, 2, 0, 0, 0, 0, 10, 8, 0, 0x45, 0, 0, 0x1C, 0, 5, 0x20, 0, 0xFF, 0x11, 0x18, 0x66, 0xC0, 0xA8, 1, 10,
    0xC0, 0xA8, 1, 11, 0, 0xC8, 0, 0x65, 0, 0x0B, 0x77, 0x43] ++
  [2, 0, 0, 0, 0, 11, 2, 0, 0, 0, 0, 10, 8, 0, 0x45, 0, 0, 0x17, 0, 5, 0, 1, 0xFF, 0x11, 0x38, 0x6A, 0xC0, 0xA8, 1, 10,
    0xC0, 0xA8, 1, 11, 1, 2, 3]

/-- The second fragment leads to the callback. -/
example :
    let first := (ip4Input [lanNetif 11] ⟨ofBytes lanFragmentFrames, [], 0⟩ [⟨14, 28, 28, .pool, 0⟩] (lanNetif 11)).1
    Delivered [lanNetif 11] first [⟨42, 37, 37, .pool, 0⟩] (lanNetif 11)
      ⟨[{ udpNew 7 with localPort := 101#16, recv := some 1 }], 0xc000#16⟩ 1 7 [1, 2, 3] (lanNetif 10).ipAddr 200#16 :=
  ⟨[⟨56, 23, 23, .pool, 0⟩], ⟨lanNetif 11, lanNetif 11, (lanNetif 10).ipAddr, (lanNetif 11).ipAddr, 20⟩,
    [⟨34, 11, 8, .pool, 0⟩, ⟨76, 3, 3, .pool, 0⟩], [⟨42, 3, 0, .pool, 0⟩, ⟨76, 3, 3, .pool, 0⟩], rfl, rfl, rfl, rfl⟩

end YlsFirmware
