import YlsFirmware.Theorems.Reception

/-! What one stack sends, another one delivers: the UDP, IP and Ethernet headers that go in front of a packet make a frame
of the format that is taken apart on its way up. -/

namespace YlsFirmware
open Packed OnesComplement

/-! ### The IP header -/

section
variable {mem : Memory} {a : Nat} {tos ttl proto : BitVec 8} {len id chksum : BitVec 16} {src dest : BitVec 32}

@[simp] theorem length_ipHeader : (ipHeader tos len id ttl proto chksum src dest).length = 20 := rfl

/-- The fields of a header, read back. -/
theorem iph_ipHeader {bs : List Byte} (h : ipHeader tos len id ttl proto chksum src dest = bs) :
    iphV (ofBytes bs) 0 = 4#8 ∧ iphHlBytes (ofBytes bs) 0 = bs.length ∧ iphLen (ofBytes bs) 0 = len.toNat ∧
      iphOffset (ofBytes bs) 0 = 0#16 ∧ iphProto (ofBytes bs) 0 = proto ∧ iphSrc (ofBytes bs) 0 = src ∧
      iphDest (ofBytes bs) 0 = dest := by
  have hlen : bs.length = 20 := h ▸ length_ipHeader
  have hread := read_ofBytes bs
  rw [hlen] at hread
  generalize ofBytes bs = mem at hread ⊢
  rw [← h] at hread
  obtain ⟨h₀, h⟩ := (@read_eq_append_iff mem 0 2 18 _ _ rfl).mp hread
  obtain ⟨h₂, h⟩ := (@read_eq_append_iff mem 2 2 16 _ _ rfl).mp h
  obtain ⟨-, h⟩ := (@read_eq_append_iff mem 4 2 14 _ _ rfl).mp h
  obtain ⟨h₆, h⟩ := (@read_eq_append_iff mem 6 2 12 _ _ rfl).mp h
  obtain ⟨h₈, h⟩ := (@read_eq_append_iff mem 8 2 10 _ _ rfl).mp h
  obtain ⟨-, h⟩ := (@read_eq_append_iff mem 10 2 8 _ _ rfl).mp h
  obtain ⟨h₁₂, h₁₆⟩ := (@read_eq_append_iff mem 12 4 4 _ _ rfl).mp h
  have hfirst : mem 0 = 0x45#8 := (List.cons_eq_cons.mp h₀).1
  have h₉ : mem 9 = proto := (List.cons_eq_cons.mp (List.cons_eq_cons.mp h₈).2).1
  refine ⟨?_, ?_, ?_, load16_eq_of_read h₆, h₉, load32_eq_of_read h₁₂, load32_eq_of_read h₁₆⟩
  · rw [iphV, hfirst]
    rfl
  · rw [iphHlBytes, hfirst, hlen]
    rfl
  · rw [iphLen, load16_eq_of_read h₂, lwipHtons_lwipHtons]

/-- Pieces of an even number of bytes add up. -/
theorem leNat_append_same {bs : List Byte} (hbs : bs.length % 2 = 0) (cs : List Byte) :
    Same 65536 (leNat (bs ++ cs)) (leNat bs + leNat cs) := by
  have hshift := @pow_mul_same 256 (by decide) bs.length (leNat cs)
  rw [if_pos hbs] at hshift
  rw [leNat_append]
  exact (Same.refl _ _).add hshift

theorem leNat_pair (b c : Byte) : leNat [b, c] = (lwipHtons (c.setWidth 16 ||| (b.setWidth 16 <<< 8))).toNat := by
  have hb := b.isLt
  have hc := c.isLt
  have hor : c.setWidth 16 ||| (b.setWidth 16 <<< 8) = b ++ c := by
    refine BitVec.eq_of_getLsbD_eq fun i hi => ?_
    rw [BitVec.getLsbD_append]
    interval_cases i <;> simp
  rw [hor, toNat_lwipHtons, toNat_append_byte, swap, leNat_cons, leNat_cons, leNat_nil]
  omega

/-- A header counts for the words that `ip4_output_if_opt_src` adds up, in its order, and the checksum. -/
theorem leNat_ipHeader_same :
    Same 65536 (leNat (ipHeader tos len id ttl proto chksum src dest))
      (leNat [ttl, proto] + fold 65536 dest.toNat + leNat [0x45#8, tos] + (lwipHtons len).toNat + (lwipHtons id).toNat +
        fold 65536 src.toNat + chksum.toNat) := by
  have hsplit : Same 65536 (leNat (ipHeader tos len id ttl proto chksum src dest))
      (leNat [0x45#8, tos] + (leNat (bytes16 (lwipHtons len)) + (leNat (bytes16 (lwipHtons id)) +
        (leNat (bytes16 0#16) + (leNat [ttl, proto] + (leNat (bytes16 chksum) +
          (leNat (bytes32 src) + leNat (bytes32 dest)))))))) := by
    refine (leNat_append_same (by simp) _).trans ((Same.refl _ _).add ?_)
    refine (leNat_append_same (by simp) _).trans ((Same.refl _ _).add ?_)
    refine (leNat_append_same (by simp) _).trans ((Same.refl _ _).add ?_)
    refine (leNat_append_same (by simp) _).trans ((Same.refl _ _).add ?_)
    refine (leNat_append_same (by simp) _).trans ((Same.refl _ _).add ?_)
    exact (leNat_append_same (by simp) _).trans ((Same.refl _ _).add (leNat_append_same (by simp) _))
  rw [leNat_bytes16, leNat_bytes16, leNat_bytes16, leNat_bytes16] at hsplit
  have hzero : (0#16).toNat = 0 := rfl
  have haddrs := (fold_addr_same src).symm.add (fold_addr_same dest).symm
  have hrest := Same.refl 65536 (leNat [0x45#8, tos] + (lwipHtons len).toNat + (lwipHtons id).toNat +
    leNat [ttl, proto] + chksum.toNat)
  have hleft : leNat [0x45#8, tos] + ((lwipHtons len).toNat + ((lwipHtons id).toNat + ((0#16).toNat +
      (leNat [ttl, proto] + (chksum.toNat + (leNat (bytes32 src) + leNat (bytes32 dest))))))) =
      leNat [0x45#8, tos] + (lwipHtons len).toNat + (lwipHtons id).toNat + leNat [ttl, proto] + chksum.toNat +
        (leNat (bytes32 src) + leNat (bytes32 dest)) := by omega
  have hright : leNat [0x45#8, tos] + (lwipHtons len).toNat + (lwipHtons id).toNat + leNat [ttl, proto] +
      chksum.toNat + (fold 65536 src.toNat + fold 65536 dest.toNat) =
      leNat [ttl, proto] + fold 65536 dest.toNat + leNat [0x45#8, tos] + (lwipHtons len).toNat + (lwipHtons id).toNat +
        fold 65536 src.toNat + chksum.toNat := by omega
  rw [hleft] at hsplit
  exact hright ▸ hsplit.trans (hrest.add haddrs)

/-- The second folding of `ip4_output_if_opt_src` does not mask the carry; the conversion to `u16_t` does. -/
theorem toNat_fold_inline {u : BitVec 32} (h : u.toNat < 2 ^ 20) :
    (~~~((~~~((foldU32T u >>> 16) + foldU32T u)).setWidth 16)).toNat = fold 65536 (fold 65536 u.toNat) := by
  have hfold := toNat_foldU32T u
  generalize foldU32T u = v at hfold ⊢
  have hv : v.toNat ≤ 65535 + 15 := by
    rw [hfold, fold]
    omega
  rw [BitVec.setWidth_not (by decide), BitVec.not_not, BitVec.toNat_setWidth, BitVec.toNat_add, BitVec.toNat_ushiftRight,
    Nat.shiftRight_eq_div_pow, ← hfold, fold]
  rcases Nat.lt_or_ge v.toNat 65536 with hsmall | hlarge
  · rw [Nat.div_eq_of_lt hsmall, Nat.zero_add, Nat.mod_eq_of_lt hsmall]
    omega
  · have hdiv : v.toNat / 65536 = 1 := Nat.div_eq_of_lt_le hlarge (by omega)
    have hlt : 1 + v.toNat < 2 ^ 32 := by omega
    rw [show 2 ^ 16 = 65536 from rfl, hdiv, Nat.mod_eq_of_lt hlt]
    omega

/-- The checksum that is added up inline is that of the header with 0 in its place. -/
theorem ipChksumInline_same :
    Same 65536 (~~~ipChksumInline tos len id ttl proto src dest).toNat
      (leNat (ipHeader tos len id ttl proto 0#16 src dest)) := by
  have hmask : ∀ u : BitVec 32, (u &&& 0xFFFF#32).toNat = u.toNat % 65536 := fun u =>
    Nat.and_two_pow_sub_one_eq_mod u.toNat 16
  have hhigh : ∀ u : BitVec 32, (u >>> 16).toNat = u.toNat / 65536 := fun u => by
    rw [BitVec.toNat_ushiftRight, Nat.shiftRight_eq_div_pow]
  have hword : ∀ v : BitVec 16, (v.setWidth 32).toNat = v.toNat := fun v => BitVec.toNat_setWidth_of_le (by decide)
  have hlt₁ := (lwipHtons (proto.setWidth 16 ||| (ttl.setWidth 16 <<< 8))).isLt
  have hlt₂ := (lwipHtons (tos.setWidth 16 ||| ((0x45#8).setWidth 16 <<< 8))).isLt
  have hlt₃ := (lwipHtons len).isLt
  have hlt₄ := (lwipHtons id).isLt
  have hsrc : src.toNat / 65536 < 65536 := Nat.div_lt_of_lt_mul src.isLt
  have hdest : dest.toNat / 65536 < 65536 := Nat.div_lt_of_lt_mul dest.isLt
  have hsum : (0#32 + (lwipHtons (proto.setWidth 16 ||| (ttl.setWidth 16 <<< 8))).setWidth 32 +
      (dest &&& 0xFFFF#32) + (dest >>> 16) +
      (lwipHtons (tos.setWidth 16 ||| ((0x45#8).setWidth 16 <<< 8))).setWidth 32 + (lwipHtons len).setWidth 32 +
      (lwipHtons id).setWidth 32 + (src &&& 0xFFFF#32) + (src >>> 16)).toNat =
      (lwipHtons (proto.setWidth 16 ||| (ttl.setWidth 16 <<< 8))).toNat + fold 65536 dest.toNat +
        (lwipHtons (tos.setWidth 16 ||| ((0x45#8).setWidth 16 <<< 8))).toNat + (lwipHtons len).toNat +
        (lwipHtons id).toNat + fold 65536 src.toNat := by
    simp only [BitVec.toNat_add, hmask, hhigh, hword, fold, BitVec.toNat_ofNat]
    omega
  have hsmall := hsum
  rw [fold, fold] at hsmall
  rw [ipChksumInline, ← foldU32T, toNat_fold_inline (by rw [hsmall]; omega), hsum, ← leNat_pair, ← leNat_pair]
  exact (fold_fold_same (by decide) _).trans (@leNat_ipHeader_same tos ttl proto len id 0#16 src dest).symm

/-- A header that carries that checksum passes the check of `ip4_input`. -/
theorem dvd_leNat_ipHeader :
    65535 ∣ leNat (ipHeader tos len id ttl proto (ipChksumInline tos len id ttl proto src dest) src dest) := by
  have hsame := @ipChksumInline_same tos ttl proto len id src dest
  generalize ipChksumInline tos len id ttl proto src dest = c at hsame
  have hc := c.isLt
  have hcompl : (~~~c).toNat = 65535 - c.toNat := BitVec.toNat_not
  have hzero := @leNat_ipHeader_same tos ttl proto len id 0#16 src dest
  have htotal := (@leNat_ipHeader_same tos ttl proto len id c src dest).trans
    ((hzero.symm.trans hsame.symm).add (Same.refl _ c.toNat))
  rw [hcompl, Nat.sub_add_cancel (by omega)] at htotal
  exact ((same_sub_one_iff (by decide)).mp htotal).2

end

/-! ### Output -/

section
variable {mem : Memory} {p q : StructPbuf} {ps qs : List StructPbuf}

/-- A checksum that a receiver accepts. -/
def Checks (bs : List Byte) (chksum : BitVec 16) (srcIp dstIp : BitVec 32) : Prop :=
  chksum = 0#16 ∨ 65535 ∣ leNat (pseudoHeader ipProtoUdp (BitVec.ofNat 16 bs.length) srcIp dstIp ++ bs)

/-- The header of `udp_sendto_if_src` in the room in front of a packet, with the checksum that belongs to it. -/
theorem udpFillHeader_packet {pcb : UdpPcb} {srcIp dstIp : BitVec 32} {dstPort : BitVec 16} {bs : List Byte}
    (hok : ChainOk (q :: qs))
    (hwrite : ∀ hdr : List Byte, hdr.length = 8 → packet (write mem q.payload hdr) (q :: qs) = hdr ++ bs) :
    ∃ chksum, packet (udpFillHeader mem (q :: qs) pcb srcIp dstIp dstPort) (q :: qs) =
        udpHeader pcb.localPort dstPort (BitVec.ofNat 16 q.totLen) chksum ++ bs ∧
      Checks (udpHeader pcb.localPort dstPort (BitVec.ofNat 16 q.totLen) chksum ++ bs) chksum srcIp dstIp := by
  have hzero := hwrite (udpHeader pcb.localPort dstPort (BitVec.ofNat 16 q.totLen) 0#16) rfl
  have hlen : q.totLen = 8 + bs.length := by
    rw [hok.totLen_eq, ← packetLen_cons, ← length_packet (write mem q.payload
      (udpHeader pcb.localPort dstPort (BitVec.ofNat 16 q.totLen) 0#16)), hzero, List.length_append, length_udpHeader]
  rw [udpFillHeader]
  dsimp only
  by_cases hnochksum : pcb.nochksum = true
  · rw [if_pos hnochksum]
    exact ⟨0#16, hzero, .inl rfl⟩
  · rw [if_neg hnochksum, write_write_same _ _ (by rw [length_udpHeader, length_udpHeader]), hwrite _ rfl]
    refine ⟨_, rfl, .inr ?_⟩
    rw [List.length_append, length_udpHeader, ← hlen]
    exact @dvd_leNat_sealed _ (q :: qs) hok.short ipProtoUdp (BitVec.ofNat 16 q.totLen) srcIp dstIp
      (bytes16 (lwipHtons pcb.localPort) ++ (bytes16 (lwipHtons dstPort) ++
        bytes16 (lwipHtons (BitVec.ofNat 16 q.totLen)))) bs (by simp) hzero

/-- Memory that `mem_malloc` has for a header of `udp_sendto_if_src`: none of the packet lies in it. -/
structure FreeForHeader (p : List StructPbuf) (a : Nat) : Prop where
  aligned : a % 4 = 0
  apart : ∀ r ∈ p, r.payload + r.len ≤ a ∨ a + 60 ≤ r.payload

/-- A header in a pbuf of its own, in front of a packet unless that is empty. -/
theorem headerPbuf_cons (hok : ChainOk (p :: ps)) (hfits : p.totLen + 8 < 2 ^ 16) (a : Nat) :
    ∃ qs, (if p.totLen ≠ 0 then pbufCat [pbufAllocRam a pbufIp udpHlen] (p :: ps)
        else [pbufAllocRam a pbufIp udpHlen]) =
        { pbufAllocRam a pbufIp udpHlen with totLen := p.totLen + 8 } :: qs ∧ TotLens qs ∧ packetLen qs = p.totLen ∧
      (∀ mem, packet mem qs = packet mem (p :: ps)) ∧ ∀ r ∈ qs, r ∈ p :: ps := by
  have htot := hok.totLen_eq
  by_cases hempty : p.totLen = 0
  · refine ⟨[], ?_, trivial, hempty.symm, fun mem => ?_, fun r hr => absurd hr List.not_mem_nil⟩
    · rw [if_neg (not_not_intro hempty), hempty]
      rfl
    · refine (List.length_eq_zero_iff.mp ?_).symm
      rw [length_packet, packetLen_cons]
      omega
  · refine ⟨p :: ps, ?_, hok.totLens, htot.symm, fun mem => rfl, fun r hr => hr⟩
    have hsum : (8 + p.totLen) % 2 ^ 16 = p.totLen + 8 := by omega
    rw [if_pos hempty, ← hsum]
    rfl

/-- The datagram that is made of a packet once the PCB is bound. -/
theorem udpSendtoBound_packet {hdr : Option Nat} {pcb : UdpPcb} {srcIp dstIp : BitVec 32} {dstPort : BitVec 16}
    {mem' : Memory} {q : List StructPbuf} (hok : ChainOk (p :: ps)) (hroom : Roomy p ps)
    (hhdr : ∀ a ∈ hdr, FreeForHeader (p :: ps) a)
    (h : udpSendtoBound mem hdr pcb (p :: ps) dstIp dstPort srcIp = .ok (mem', q)) :
    ∃ q₀ qs chksum, q = q₀ :: qs ∧ ChainOk q ∧ Roomy q₀ qs ∧ 8 ≤ q₀.len ∧ packetLen (p :: ps) + 8 < 2 ^ 16 ∧
      packet mem' q = udpHeader pcb.localPort dstPort (BitVec.ofNat 16 (packetLen (p :: ps) + 8)) chksum ++
        packet mem (p :: ps) ∧
      Checks (udpHeader pcb.localPort dstPort (BitVec.ofNat 16 (packetLen (p :: ps) + 8)) chksum ++
        packet mem (p :: ps)) chksum srcIp dstIp := by
  have htot := hok.totLen_eq
  have hlt := hok.lt
  rw [packetLen_cons] at hlt
  unfold udpSendtoBound at h
  dsimp only at h
  have hsmall : ¬(p.totLen + udpHlen) % 2 ^ 16 < p.totLen := fun hwrap => by
    rw [if_pos hwrap] at h
    cases h
  rw [if_neg hsmall] at h
  cases hadd : pbufAddHeader p udpHlen with
  | some q₀ =>
    -- the header fits in front of the payload
    rw [hadd] at h
    obtain ⟨rfl, rfl⟩ := Prod.mk.inj (Except.ok.inj h)
    have hprepend := fun bs : List Byte => fun hlen : bs.length = 8 =>
      @packet_prepend mem p q₀ ps hok hroom bs (List.ne_nil_of_length_eq_add_one hlen) (hlen ▸ hadd)
    obtain ⟨-, hok', hroom', hlen, htot'⟩ := hprepend (udpHeader 0#16 0#16 0#16 0#16) rfl
    obtain ⟨chksum, hpacket, hcheck⟩ := @udpFillHeader_packet mem q₀ ps pcb srcIp dstIp dstPort _ hok'
      fun bs hbs => (hprepend bs hbs).1
    rw [length_udpHeader] at hlen htot'
    have hq₀ : q₀.totLen = packetLen (p :: ps) + 8 := by
      rw [htot', htot, packetLen_cons]
    have hlt' := hok'.lt
    rw [hq₀] at hpacket hcheck
    refine ⟨q₀, ps, chksum, rfl, hok', hroom', by omega, ?_, hpacket, hcheck⟩
    rw [← hq₀, hok'.totLen_eq, ← packetLen_cons]
    exact hlt'
  | none =>
    -- the header gets a pbuf of its own, in front of the packet unless that is empty
    rw [hadd] at h
    cases hdr with
    | none => cases h
    | some a =>
      obtain ⟨rfl, rfl⟩ := Prod.mk.inj (Except.ok.inj h)
      have hfree := hhdr a rfl
      have hpayload : (pbufAllocRam a pbufIp udpHlen).payload = a + 52 := by
        have haligned := hfree.aligned
        simp only [pbufAllocRam, memAlignSize, sizeofStructPbuf, pbufIp]
        omega
      have hfits : p.totLen + 8 < 2 ^ 16 := by
        rw [udpHlen] at hsmall
        omega
      obtain ⟨qs, hq, htots, hlen, hpacket, hmem⟩ := headerPbuf_cons hok hfits a
      rw [hq]
      generalize hq₀ : { pbufAllocRam a pbufIp udpHlen with totLen := p.totLen + 8 } = q₀
      have hq₀len : q₀.len = 8 := hq₀ ▸ rfl
      have hq₀tot : q₀.totLen = packetLen (p :: ps) + 8 := by
        rw [packetLen_cons, ← htot, ← hq₀]
      have hq₀payload : q₀.payload = a + 52 := hq₀ ▸ hpayload
      have hok' : ChainOk (q₀ :: qs) := by
        refine ⟨⟨?_, htots⟩, ?_⟩
        · rw [hq₀tot, hq₀len, hlen, packetLen_cons, ← htot, Nat.add_comm]
        · rw [packetLen_cons, hq₀len, hlen]
          omega
      have hroom' : Roomy q₀ qs := fun r hr => by
        have hstart : q₀.start = a + 16 := hq₀ ▸ rfl
        rcases hfree.apart r (hmem r hr) with hr | hr
        · exact .inl (by omega)
        · exact .inr (by omega)
      obtain ⟨chksum, hsent, hcheck⟩ := @udpFillHeader_packet mem q₀ qs pcb srcIp dstIp dstPort (packet mem (p :: ps)) hok'
        fun bs hbs => by
          have hrest : packet (write mem q₀.payload bs) qs = packet mem qs := by
            refine packet_write_disjoint fun r hr => ?_
            rcases hfree.apart r (hmem r hr) with hr | hr
            · exact .inl (by omega)
            · exact .inr (by omega)
          rw [packet_cons, hrest, hpacket, StructPbuf.bytes, hq₀len, ← hbs, read_write]
      rw [hq₀tot] at hsent hcheck
      refine ⟨q₀, qs, chksum, rfl, hok', hroom', Nat.le_of_eq hq₀len.symm, ?_, hsent, hcheck⟩
      rw [packetLen_cons, ← htot]
      exact hfits

/-- The packet that `ip4_output_if_src` makes of a datagram. -/
theorem ip4OutputIfSrc_packet {ipId ipId' : BitVec 16} {src dest dest' : BitVec 32} {ttl tos proto : BitVec 8}
    {netif : Netif} {mem' : Memory} {q : List StructPbuf} (hok : ChainOk (p :: ps)) (hroom : Roomy p ps)
    (h : ip4OutputIfSrc mem ipId (p :: ps) src dest ttl tos proto netif = (mem', ipId', .output q dest')) :
    ∃ q₀, q = q₀ :: ps ∧ dest' = dest ∧ ChainOk q ∧ Roomy q₀ ps ∧ packetLen (p :: ps) + 20 < 2 ^ 16 ∧
      packet mem' q =
        ipHeader tos (BitVec.ofNat 16 (packetLen (p :: ps) + 20)) ipId ttl proto
          (ipChksumInline tos (BitVec.ofNat 16 (packetLen (p :: ps) + 20)) ipId ttl proto src dest) src dest ++
            packet mem (p :: ps) := by
  rw [ip4OutputIfSrc] at h
  dsimp only at h
  cases hadd : pbufAddHeader p ipHlen with
  | none =>
    rw [hadd] at h
    cases h
  | some q₀ =>
    rw [hadd] at h
    obtain ⟨-, -, hlt⟩ := pbufAddHeader_eq hok (by decide) hadd
    have hprepend := fun bs : List Byte => fun hlen : bs.length = 20 =>
      @packet_prepend mem p q₀ ps hok hroom bs (List.ne_nil_of_length_eq_add_one hlen) (hlen ▸ hadd)
    have htot : q₀.totLen = packetLen (p :: ps) + 20 := by
      rw [(hprepend (ipHeader tos 0 0 0 0 0 src dest) rfl).2.2.2.2, hok.totLen_eq, packetLen_cons]
      rfl
    dsimp only at h
    rw [htot] at h
    split_ifs at h with hmtu
    · cases (Prod.mk.inj (Prod.mk.inj h).2).2
    · obtain ⟨rfl, hout⟩ := Prod.mk.inj h
      obtain ⟨rfl, rfl⟩ := Ip4Output.output.inj (Prod.mk.inj hout).2
      obtain ⟨hpacket, hok', hroom', -⟩ := hprepend (ipHeader tos _ ipId ttl proto _ src dest) rfl
      exact ⟨q₀, rfl, rfl, hok', hroom', hlt, hpacket⟩

/-- The frame that `ethernet_output` makes of a packet. -/
theorem ethernetOutput_packet {hwsrc hwdst : List Byte} {ethType : BitVec 16} {mem' : Memory} {q : List StructPbuf}
    (hok : ChainOk (p :: ps)) (hroom : Roomy p ps) (hhw : (hwdst ++ hwsrc).length = 12)
    (h : ethernetOutput mem (p :: ps) hwsrc hwdst ethType = (mem', some q)) :
    packet mem' q = hwdst ++ hwsrc ++ (bytes16 (lwipHtons ethType) ++ packet mem (p :: ps)) := by
  rw [ethernetOutput] at h
  cases hadd : pbufAddHeader p sizeofEthHdr with
  | none =>
    rw [hadd] at h
    cases h
  | some q₀ =>
    rw [hadd] at h
    obtain ⟨rfl, hq⟩ := Prod.mk.inj h
    obtain rfl := Option.some.inj hq
    have hlen : (hwdst ++ hwsrc ++ bytes16 (lwipHtons ethType)).length = 14 := by
      rw [List.length_append, hhw, length_bytes16]
    have hpacket := (@packet_prepend mem p q₀ ps hok hroom _ (List.ne_nil_of_length_eq_add_one hlen)
      (hlen ▸ hadd)).1
    rw [← List.append_assoc, ← List.append_assoc, hpacket]

/-- What a datagram is sent as is a frame of the format that `delivered_of_frame` is about. -/
theorem exists_sentFrame {hw bs : List Byte} {tos ttl : BitVec 8} {id srcPort destPort chksum : BitVec 16}
    {src dest : BitVec 32} (hhw : hw.length = 12) (hlen : bs.length + 8 + 20 < 2 ^ 16)
    (hchecks : Checks (udpHeader srcPort destPort (BitVec.ofNat 16 (bs.length + 8)) chksum ++ bs) chksum src dest) :
    ∃ f : UdpFrame, f.bytes = hw ++ (bytes16 (lwipHtons ethtypeIp) ++
        (ipHeader tos (BitVec.ofNat 16 (bs.length + 8 + 20)) id ttl ipProtoUdp
            (ipChksumInline tos (BitVec.ofNat 16 (bs.length + 8 + 20)) id ttl ipProtoUdp src dest) src dest ++
          (udpHeader srcPort destPort (BitVec.ofNat 16 (bs.length + 8)) chksum ++ bs))) ∧
      f.headers = 42 ∧ f.src = src ∧ f.dest = dest ∧ f.ip.length = 20 ∧ f.srcPort = srcPort ∧ f.destPort = destPort ∧
      f.payload = bs := by
  generalize hip : ipHeader tos (BitVec.ofNat 16 (bs.length + 8 + 20)) id ttl ipProtoUdp
    (ipChksumInline tos (BitVec.ofNat 16 (bs.length + 8 + 20)) id ttl ipProtoUdp src dest) src dest = ip
  have hdvd : 65535 ∣ leNat ip := hip ▸ dvd_leNat_ipHeader
  have hiplen : ip.length = 20 := hip ▸ length_ipHeader
  obtain ⟨hv, hhl, hl, ho, hp, hs, hd⟩ := iph_ipHeader hip
  have htotal : iphLen (ofBytes ip) 0 = ip.length + (8 + bs.length) := by
    rw [hl, hiplen, BitVec.toNat_ofNat, Nat.mod_eq_of_lt hlen]
    omega
  have hoffset : iphOffset (ofBytes ip) 0 &&& lwipHtons 0x3fff#16 = 0#16 := by
    rw [ho, BitVec.zero_and]
  have hudp : chksum = 0#16 ∨ 65535 ∣ leNat (pseudoHeader ipProtoUdp (BitVec.ofNat 16 (8 + bs.length))
      (iphSrc (ofBytes ip) 0) (iphDest (ofBytes ip) 0) ++
        (udpHeader srcPort destPort (BitVec.ofNat 16 (bs.length + 8)) chksum ++ bs)) := by
    rw [hs, hd]
    rw [Checks, List.length_append, length_udpHeader] at hchecks
    exact hchecks
  refine ⟨⟨hw, ip, srcPort, destPort, _, chksum, bs, hhw, hv, hhl, by omega, htotal, hoffset, hp, hdvd, hudp⟩, rfl, ?_,
    hs, hd, hiplen, rfl, rfl, rfl⟩
  rw [UdpFrame.headers, hiplen]

/-- What `udp_sendto_if_src` sends is sent from the PCB that it leaves, bound if it was not. -/
theorem udpSendtoBound_of_sent {hdr : Option Nat} {sender sender' : UdpState} {pcb bound : UdpPcb}
    {p : List StructPbuf} {dstIp srcIp : BitVec 32} {dstPort : BitVec 16} {x : Memory × List StructPbuf}
    (h : udpSendtoIfSrc mem hdr sender pcb p dstIp dstPort srcIp = (sender', bound, .ok x)) :
    udpSendtoBound mem hdr bound p dstIp dstPort srcIp = .ok x := by
  rw [udpSendtoIfSrc] at h
  split_ifs at h with hempty hport
  · cases h
  · generalize udpBind sender pcb pcb.localIp pcb.localPort = r at h
    obtain ⟨s, q, err⟩ := r
    dsimp only at h
    split_ifs at h with herr
    · cases h
    · obtain ⟨-, hrest⟩ := Prod.mk.inj h
      obtain ⟨rfl, hsent⟩ := Prod.mk.inj hrest
      exact hsent
  · obtain ⟨-, hrest⟩ := Prod.mk.inj h
    obtain ⟨rfl, hsent⟩ := Prod.mk.inj hrest
    exact hsent

/-- A packet goes out in one frame: from `udp_sendto_if_src`, which leaves the PCB `bound`, to `ethernet_output`, which gets
    the hardware addresses. -/
def SentAs (mem : Memory) (hdr : Option Nat) (ipId : BitVec 16) (sender : UdpState) (pcb : UdpPcb) (p : List StructPbuf)
    (dstIp : BitVec 32) (dstPort : BitVec 16) (srcIp : BitVec 32) (netif : Netif) (hwdst : List Byte) (bound : UdpPcb)
    (mem' : Memory) (q : List StructPbuf) : Prop :=
  ∃ sender' mem₁ q₁ mem₂ ipId' q₂ dst,
    udpSendtoIfSrc mem hdr sender pcb p dstIp dstPort srcIp = (sender', bound, .ok (mem₁, q₁)) ∧
    ip4OutputIfSrc mem₁ ipId q₁ srcIp dstIp bound.ttl bound.tos ipProtoUdp netif = (mem₂, ipId', .output q₂ dst) ∧
    ethernetOutput mem₂ q₂ netif.hwaddr hwdst ethtypeIp = (mem', some q)

end

section
variable {mem mem' : Memory} {p r : StructPbuf} {ps rs q : List StructPbuf} {hdr : Option Nat} {ipId : BitVec 16}
  {sender udp : UdpState} {pcb bound rpcb : UdpPcb} {dstIp srcIp : BitVec 32} {dstPort : BitVec 16} {netif inp : Netif}
  {netifList : List Netif} {hwdst pad : List Byte} {s : Ip4State} {callback : Nat}

/-- The frame that is sent for a packet. -/
theorem sent_bytes (hok : ChainOk (p :: ps)) (hroom : Roomy p ps) (hhdr : ∀ a ∈ hdr, FreeForHeader (p :: ps) a)
    (hhw : (hwdst ++ netif.hwaddr).length = 12)
    (h : SentAs mem hdr ipId sender pcb (p :: ps) dstIp dstPort srcIp netif hwdst bound mem' q) :
    ∃ f : UdpFrame, packet mem' q = f.bytes ∧ f.headers = 42 ∧ f.src = srcIp ∧ f.dest = dstIp ∧ f.ip.length = 20 ∧
      f.srcPort = bound.localPort ∧ f.destPort = dstPort ∧ f.payload = packet mem (p :: ps) := by
  obtain ⟨sender', mem₁, q₁, mem₂, ipId', q₂, dst, hudp, hip, heth⟩ := h
  obtain ⟨t, ts, chksum, rfl, hokt, hroomt, -, hlt, hpacket, hchecks⟩ :=
    udpSendtoBound_packet hok hroom hhdr (udpSendtoBound_of_sent hudp)
  obtain ⟨u, rfl, -, hoku, hroomu, hlt', hpacket'⟩ := ip4OutputIfSrc_packet hokt hroomt hip
  have hframe := ethernetOutput_packet hoku hroomu hhw heth
  have hlen : packetLen (t :: ts) = packetLen (p :: ps) + 8 := by
    rw [← length_packet mem₁, hpacket, List.length_append, length_packet, length_udpHeader, Nat.add_comm]
  rw [hpacket', hpacket, hlen, ← length_packet mem] at hframe
  rw [hlen, ← length_packet mem] at hlt'
  rw [← length_packet mem] at hchecks
  obtain ⟨f, hbytes, hf⟩ := exists_sentFrame hhw hlt' hchecks
  exact ⟨f, hframe.trans hbytes.symm, hf⟩

/-- What is sent to a host where a PCB listens reaches its callback: the bytes of the packet, whatever pbufs it was sent
    from and is received in, and with the address and the port of the sender. -/
theorem delivered_of_sent (hok : ChainOk (p :: ps)) (hroom : Roomy p ps) (hhdr : ∀ a ∈ hdr, FreeForHeader (p :: ps) a)
    (hhw : (hwdst ++ netif.hwaddr).length = 12)
    (hsent : SentAs mem hdr ipId sender pcb (p :: ps) dstIp dstPort srcIp netif hwdst bound mem' q)
    (hrok : ChainOk (r :: rs)) (hframe : packet s.mem (r :: rs) = packet mem' q ++ pad) (hfirst : 42 ≤ r.len)
    (hetharp : inp.etharp = true) {dest : Netif} (hrouted : routed netifList inp srcIp dstIp (dstPort == 68#16) = some dest)
    (hhost : ip4AddrIsbroadcast dstIp dest = false) {s₀ : UdpState} (hinit : s₀.Initial)
    (hrun : Relation.ReflTransGen UdpStep s₀ udp) (hmem : rpcb ∈ udp.udpPcbs) (hrecv : rpcb.recv = some callback)
    (hlistens : Listens ⟨dest, inp, srcIp, dstIp, 20⟩ false dstPort rpcb)
    (hhears : Hears ⟨dest, inp, srcIp, dstIp, 20⟩ bound.localPort rpcb) :
    Delivered netifList s (r :: rs) inp udp callback rpcb.pcb (packet mem (p :: ps)) srcIp bound.localPort := by
  obtain ⟨f, hbytes, hheaders, rfl, rfl, hip, hsrcPort, rfl, hpayload⟩ := sent_bytes hok hroom hhdr hhw hsent
  have hpcb : f.pcb netifList inp udp.udpPcbs = some rpcb := by
    rw [UdpFrame.pcb, hrouted, Option.bind_some, hip, hsrcPort]
    exact (PcbsOk.run hinit hrun).udpPcbFor_eq hhost hmem hlistens hhears
  rw [← hsrcPort, ← hpayload]
  exact delivered_of_frame f hrok (hframe.trans (congrArg (· ++ pad) hbytes)) (hheaders ▸ hfirst) hetharp hpcb hrecv

end

/-- Three bytes in a PBUF_ROM pbuf from a PCB without a port, received in two pbufs and with a byte behind them -/
theorem delivered_of_sent_rom :
    ∃ mem' q, SentAs (write (fun _ => 0#8) 1000 [1, 2, 3]) (some 100) 5#16 ⟨[], 0xc000#16⟩ (udpNew 3)
        [⟨1000, 3, 3, .rom, 0⟩] (lanNetif 11).ipAddr 101#16 (lanNetif 10).ipAddr (lanNetif 10) (lanNetif 11).hwaddr
        { udpNew 3 with localPort := 0xc001#16 } mem' q ∧
      Delivered [lanNetif 11] ⟨ofBytes (packet mem' q ++ [0xEE]), [], 0⟩
        [⟨0, 46, 43, .pool, 0⟩, ⟨43, 3, 3, .pool, 0⟩] (lanNetif 11)
        (udpBind ⟨[], 0xc000#16⟩ { udpNew 7 with recv := some 1 } 0#32 101#16).1 1 7 [1, 2, 3] (lanNetif 10).ipAddr
        0xc001#16 := by
  obtain ⟨mem', q, hsent⟩ : ∃ mem' q, SentAs (write (fun _ => 0#8) 1000 [1, 2, 3]) (some 100) 5#16 ⟨[], 0xc000#16⟩
      (udpNew 3) [⟨1000, 3, 3, .rom, 0⟩] (lanNetif 11).ipAddr 101#16 (lanNetif 10).ipAddr (lanNetif 10)
      (lanNetif 11).hwaddr { udpNew 3 with localPort := 0xc001#16 } mem' q := ⟨_, _, _, _, _, _, _, _, _, rfl, rfl, rfl⟩
  have hok : ChainOk [⟨1000, 3, 3, .rom, 0⟩] := ⟨⟨rfl, trivial⟩, by decide⟩
  have hroom : Roomy ⟨1000, 3, 3, .rom, 0⟩ [] := fun r hr => by cases hr
  have hhdr : ∀ a ∈ some 100, FreeForHeader [⟨1000, 3, 3, .rom, 0⟩] a := fun a ha => by
    obtain rfl := Option.some.inj ha
    exact ⟨rfl, fun r hr => .inr (List.mem_singleton.mp hr ▸ by decide)⟩
  have hlen : (packet mem' q ++ [0xEE]).length = 46 := by
    obtain ⟨f, hbytes, hheaders, -, -, -, -, -, hpayload⟩ := sent_bytes hok hroom hhdr rfl hsent
    rw [List.length_append, hbytes, f.length_bytes, hheaders, hpayload]
    rfl
  have hrok : ChainOk [⟨0, 46, 43, .pool, 0⟩, ⟨43, 3, 3, .pool, 0⟩] := ⟨⟨rfl, rfl, trivial⟩, by decide⟩
  have hframe : packet (ofBytes (packet mem' q ++ [0xEE])) [⟨0, 46, 43, .pool, 0⟩, ⟨43, 3, 3, .pool, 0⟩] =
      packet mem' q ++ [0xEE] := by
    have hread := read_ofBytes (packet mem' q ++ [0xEE])
    rw [hlen] at hread
    have hcut := read_add (ofBytes (packet mem' q ++ [0xEE])) 0 43 3
    rw [hread] at hcut
    rw [packet_cons, packet_cons, hcut]
    exact congrArg _ (List.append_nil _)
  have hrouted : routed [lanNetif 11] (lanNetif 11) (lanNetif 10).ipAddr (lanNetif 11).ipAddr (101#16 == 68#16) =
      some (lanNetif 11) := rfl
  have hhost : ip4AddrIsbroadcast (lanNetif 11).ipAddr (lanNetif 11) = false := by decide
  have hinit : UdpState.Initial ⟨[], 0xc000#16⟩ := ⟨rfl, by decide⟩
  have hheld : UdpState.Held ⟨[], 0xc000#16⟩ { udpNew 7 with recv := some 1 } := .inr ⟨rfl, fun q hq => by cases hq⟩
  have hmem := mem_udpInsert [] { udpNew 7 with recv := some 1, localPort := 101#16 }
  have hdelivered := delivered_of_sent (s := ⟨ofBytes (packet mem' q ++ [0xEE]), [], 0⟩) hok hroom hhdr rfl hsent hrok
    hframe (by decide) rfl hrouted hhost hinit (.single (.bind hheld 0#32 101#16)) hmem rfl rfl (.inl rfl)
  exact ⟨mem', q, hsent, hdelivered⟩

end YlsFirmware
