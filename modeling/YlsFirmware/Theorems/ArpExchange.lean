import YlsFirmware.Theorems.ArpRuns
import YlsFirmware.Theorems.Delivery

/-! Two hosts and the messages between them: the one that asks learns the Ethernet address of the other one, and sends the
packet that has waited. -/

namespace YlsFirmware
open Packed Machine

variable {α : Type}

/-! ### Messages -/

section
variable {mem : Memory} {opcode : BitVec 16} {hwsrc hwdst ethsrc ethdst : EthAddr} {ipsrc ipdst : BitVec 32}

/-- The header that `etharp_raw` writes, as `etharp_input` sees it. -/
def rawHdr (opcode : BitVec 16) (hwsrc : EthAddr) (ipsrc : BitVec 32) (hwdst : EthAddr) (ipdst : BitVec 32) :
    EtharpHdr :=
  ⟨lwipHtons lwipIanaHwtypeEthernet, lwipHtons ethtypeIp, 6#8, 4#8, lwipHtons opcode, hwsrc, ipsrc, hwdst, ipdst⟩

/-- The bytes of its frame -/
def rawFrame (ethsrc ethdst : EthAddr) (opcode : BitVec 16) (hwsrc : EthAddr) (ipsrc : BitVec 32) (hwdst : EthAddr)
    (ipdst : BitVec 32) : List Byte :=
  ethdst ++ ethsrc ++ (bytes16 (lwipHtons ethtypeArp) ++ etharpHeader opcode hwsrc ipsrc hwdst ipdst)

theorem length_etharpHeader (hsrc : hwsrc.length = 6) (hdst : hwdst.length = 6) :
    (etharpHeader opcode hwsrc ipsrc hwdst ipdst).length = 28 := by
  simp [etharpHeader, hsrc, hdst]

theorem etharpHdr_of_read {o : Nat} (hsrc : hwsrc.length = 6) (hdst : hwdst.length = 6)
    (hread : read mem o 28 = etharpHeader opcode hwsrc ipsrc hwdst ipdst) :
    etharpHdr mem o = rawHdr opcode hwsrc ipsrc hwdst ipdst := by
  rw [etharpHeader] at hread
  obtain ⟨h₀, h⟩ := (@read_eq_append_iff mem o 2 26 _ _ rfl).mp hread
  obtain ⟨h₂, h⟩ := (@read_eq_append_iff mem _ 2 24 _ _ rfl).mp h
  obtain ⟨h₄, h⟩ := (@read_eq_append_iff mem _ 2 22 _ _ rfl).mp h
  obtain ⟨h₆, h⟩ := (@read_eq_append_iff mem _ 2 20 _ _ rfl).mp h
  obtain ⟨h₈, h⟩ := (@read_eq_append_iff mem _ 6 14 _ _ hsrc).mp h
  obtain ⟨h₁₄, h⟩ := (@read_eq_append_iff mem _ 4 10 _ _ rfl).mp h
  obtain ⟨h₁₈, h₂₄⟩ := (@read_eq_append_iff mem _ 6 4 _ _ hdst).mp h
  have hlens : mem (o + 4) = 6#8 ∧ mem (o + 5) = 4#8 :=
    ⟨(List.cons_eq_cons.mp h₄).1, (List.cons_eq_cons.mp (List.cons_eq_cons.mp h₄).2).1⟩
  rw [etharpHdr, rawHdr, load16_eq_of_read h₀, load16_eq_of_read h₂, hlens.1, hlens.2, load16_eq_of_read h₆, h₈,
    load32_eq_of_read h₁₄, h₁₈, load32_eq_of_read h₂₄]

/-- A message goes out as the bytes of its frame. -/
theorem etharpRaw_packet (mem : Memory) (a : Nat) (heth : (ethdst ++ ethsrc).length = 12) (hsrc : hwsrc.length = 6)
    (hdst : hwdst.length = 6) :
    ∃ mem' q, etharpRaw mem (some a) ethsrc ethdst hwsrc ipsrc hwdst ipdst opcode = .ok (mem', some q) ∧
      packet mem' q = rawFrame ethsrc ethdst opcode hwsrc ipsrc hwdst ipdst := by
  generalize hp : pbufAllocRam a pbufLink sizeofEtharpHdr = p
  have hlen : p.len = 28 := hp ▸ rfl
  have htot : p.totLen = 28 := hp ▸ rfl
  have hcontig : p.type.contiguous = true := hp ▸ rfl
  have hstart : p.start + 14 ≤ p.payload := by
    rw [← hp]
    simp only [pbufAllocRam, memAlignSize, sizeofStructPbuf, pbufLink]
    omega
  have hok : ChainOk [p] := by
    refine ⟨⟨by rw [htot, hlen]; rfl, trivial⟩, ?_⟩
    rw [packetLen_cons, hlen]
    decide
  obtain ⟨q, hq⟩ : ∃ q, pbufAddHeader p 14 = some q := by
    rw [pbufAddHeader, pbufAddHeaderImpl, htot, hcontig, Bool.true_and, Bool.not_true, Bool.false_and,
      decide_eq_false (Nat.not_lt.mpr hstart)]
    exact ⟨_, rfl⟩
  have hsent : etharpRaw mem (some a) ethsrc ethdst hwsrc ipsrc hwdst ipdst opcode =
      .ok (write (write mem p.payload (etharpHeader opcode hwsrc ipsrc hwdst ipdst)) q.payload
        (ethdst ++ (ethsrc ++ bytes16 (lwipHtons ethtypeArp))), some [q]) := by
    rw [etharpRaw, hp, ethernetOutput, show sizeofEthHdr = 14 from rfl, hq]
  refine ⟨_, _, hsent, ?_⟩
  rw [etharpRaw, hp] at hsent
  have hframe := ethernetOutput_packet hok (fun r hr => absurd hr List.not_mem_nil) heth (Except.ok.inj hsent)
  have hheader := read_write mem p.payload (etharpHeader opcode hwsrc ipsrc hwdst ipdst)
  rw [length_etharpHeader hsrc hdst] at hheader
  have hnil : ∀ mem, packet mem [] = [] := fun _ => rfl
  rw [hframe, packet_cons, StructPbuf.bytes, hlen, hheader, rawFrame, hnil, List.append_nil]

/-- A frame that arrives whole in the first pbuf is taken apart into its header. -/
theorem etharpInputFrame_eq {p : StructPbuf} {ps : List StructPbuf} {netif : Netif}
    {pad : List Byte} (t : ArpTable α) (hok : ChainOk (p :: ps)) (hlen : 42 ≤ p.len) (hetharp : netif.etharp = true)
    (heth : (ethdst ++ ethsrc).length = 12) (hsrc : hwsrc.length = 6) (hdst : hwdst.length = 6)
    (hpacket : packet mem (p :: ps) = rawFrame ethsrc ethdst opcode hwsrc ipsrc hwdst ipdst ++ pad) :
    etharpInputFrame t mem (p :: ps) netif =
      etharpInput t (rawHdr opcode hwsrc ipsrc hwdst ipdst) netif := by
  have hframe : (rawFrame ethsrc ethdst opcode hwsrc ipsrc hwdst ipdst).length = 42 := by
    rw [rawFrame, List.length_append, heth, List.length_append, length_etharpHeader hsrc hdst, length_bytes16]
  have hread : read mem p.payload 42 = rawFrame ethsrc ethdst opcode hwsrc ipsrc hwdst ipdst := by
    have hcut := congrArg (List.take 42) hpacket
    rwa [packet_cons, List.take_append_of_le_length (by rw [length_bytes]; exact hlen), StructPbuf.bytes,
      take_read mem p.payload hlen, List.take_append_of_le_length (Nat.le_of_eq hframe.symm),
      List.take_of_length_le (Nat.le_of_eq hframe)] at hcut
  obtain ⟨-, hrest⟩ := (@read_eq_append_iff mem p.payload 12 30 _ _ heth).mp hread
  obtain ⟨htype, hheader⟩ := (@read_eq_append_iff mem _ 2 28 _ _ rfl).mp hrest
  obtain ⟨q, hq, -, -, hpayload, -⟩ := packet_removeHeader mem hok (show 14 ≤ p.len by omega)
  have harp : ethernetInput mem (p :: ps) netif = .arp (q :: ps) := by
    rw [ethernetInput, if_neg (show ¬p.len ≤ sizeofEthHdr from Nat.not_le.mpr (Nat.lt_of_lt_of_le (by decide) hlen))]
    dsimp only
    rw [load16_eq_of_read htype, if_neg (by decide), if_pos rfl, hetharp, Bool.not_true, if_neg Bool.false_ne_true,
      show sizeofEthHdr = 14 from rfl, hq]
  rw [etharpInputFrame, harp]
  dsimp only
  rw [hpayload, etharpHdr_of_read hsrc hdst hheader]

end

/-! ### What the hosts learn -/

section
variable {t : ArpTable α} {netif : Netif} {ipaddr : BitVec 32} {ethaddr : EthAddr} {flags : EtharpFlags}

/-- The addresses that get an entry -/
def HostAddr (netif : Netif) (ipaddr : BitVec 32) : Prop :=
  (ip4AddrIsany ipaddr || ip4AddrIsbroadcast ipaddr netif || ip4AddrIsmulticast ipaddr) = false

/-- The table knows the Ethernet address of a host. -/
def Knows (t : ArpTable α) (netif : Netif) (ipaddr : BitVec 32) (ethaddr : EthAddr) : Prop :=
  ∃ i, (t i).resolves netif.num ipaddr = true ∧ (t i).ethaddr = ethaddr

theorem knows_of_learned {i : Fin arpTableSize} (hipaddr : (t i).ipaddr = ipaddr) :
    Knows (Function.update t i ((t i).learned netif.num ethaddr)) netif ipaddr ethaddr := by
  refine ⟨i, ?_, ?_⟩
  · rw [Function.update_self]
    exact EtharpEntry.resolves_iff.mpr ⟨rfl, rfl, hipaddr.symm⟩
  · rw [Function.update_self]
    rfl

theorem knows_of_update (hip : HostAddr netif ipaddr)
    (hfind : flags = .tryHard ∨ ∃ i, (t i).IsFor ipaddr netif.num) :
    Knows (etharpUpdateArpEntry t netif ipaddr ethaddr flags).1 netif ipaddr ethaddr := by
  rw [etharpUpdateArpEntry, hip, if_neg Bool.false_ne_true]
  rcases etharpFindEntry_cases t ipaddr flags netif.num with
    ⟨i, heq, hfor⟩ | ⟨hnone, ⟨hflags, -⟩ | ⟨-, i, ⟨-, heq⟩ | ⟨-, -, heq⟩⟩⟩
  · rw [heq]
    exact knows_of_learned hfor.2.1.symm
  · rcases hfind with htry | ⟨i, hi⟩
    · cases htry.symm.trans hflags
    · exact absurd hi (hnone i)
  · rw [heq]
    exact knows_of_learned (by rw [Function.update_self]; rfl)
  · rw [heq]
    exact knows_of_learned (by rw [Function.update_self]; rfl)

/-- A packet that waits for the host is sent to the address that is learned. -/
theorem dequeue_of_update {i : Fin arpTableSize} {q : α} (hip : HostAddr netif ipaddr) (honly : OnlyFor t i ipaddr netif.num)
    (hfor : (t i).IsFor ipaddr netif.num) (hq : (t i).q = some q) :
    .dequeue netif.num q ethaddr ∈ (etharpUpdateArpEntry t netif ipaddr ethaddr flags).2.1 := by
  rw [etharpUpdateArpEntry, hip, if_neg Bool.false_ne_true]
  rcases etharpFindEntry_cases t ipaddr flags netif.num with ⟨j, heq, hj⟩ | ⟨hnone, -⟩
  · rw [heq, honly j hj]
    dsimp only
    rw [hq]
    exact List.mem_singleton_self _
  · exact absurd hfor (hnone i)

end

/-! ### The exchange -/

/-- Two hosts that can talk to each other. -/
structure Neighbours (a b : Netif) : Prop where
  hwaddrA : a.hwaddr.length = 6
  hwaddrB : b.hwaddr.length = 6
  etharpA : a.etharp = true
  etharpB : b.etharp = true
  ne : a.ipAddr ≠ b.ipAddr
  hostA : HostAddr b a.ipAddr
  hostB : HostAddr a b.ipAddr

/-- A packet waits for a host. -/
def WaitsFor (t : ArpTable α) (netif : Netif) (ipaddr : BitVec 32) (q : α) : Prop :=
  ∃ i, (t i).IsFor ipaddr netif.num ∧ (t i).q = some q

/-- A message that is sent arrives in a chain, with its header in the first pbuf and perhaps with bytes behind it. -/
structure Arrives (mem : Memory) (f : List StructPbuf) (mem' : Memory) (r : StructPbuf) (rs : List StructPbuf) :
    Prop where
  ok : ChainOk (r :: rs)
  len : 42 ≤ r.len
  packet : ∃ pad, YlsFirmware.packet mem' (r :: rs) = YlsFirmware.packet mem f ++ pad

section
variable {a b : Netif} {q : α} {mem mem' mem₁ mem₂ memA memB : Memory}
  {r u : StructPbuf} {rs us f g : List StructPbuf} {dst : EthAddr} {x y : Nat}

/-- A host that gets a request for its address replies to the one that asks, and knows it right after. -/
theorem replies_to_request (t : ArpTable α) (h : Neighbours a b) (hdst : dst.length = 6)
    (hsent : etharpRequestDst mem (some x) a b.ipAddr dst = .ok (mem₁, some f)) (harrives : Arrives mem₁ f memB r rs) :
    .reply b.num a.ipAddr a.hwaddr ∈ (etharpInputFrame t memB (r :: rs) b).2 ∧
      Knows (etharpInputFrame t memB (r :: rs) b).1 b a.ipAddr a.hwaddr := by
  have heth : (dst ++ a.hwaddr).length = 12 := by rw [List.length_append, hdst, h.hwaddrA]
  obtain ⟨mem₂, f', hraw, hbytes⟩ := @etharpRaw_packet arpRequest a.hwaddr ethzero a.hwaddr dst a.ipAddr b.ipAddr mem x
    heth h.hwaddrA rfl
  rw [etharpRequestDst, hraw] at hsent
  obtain ⟨rfl, hf⟩ := Prod.mk.inj (Except.ok.inj hsent)
  obtain rfl := Option.some.inj hf
  obtain ⟨pad, hpacket⟩ := harrives.packet
  rw [hbytes] at hpacket
  rw [etharpInputFrame_eq t harrives.ok harrives.len h.etharpB heth h.hwaddrA rfl hpacket, etharpInput,
    show (rawHdr arpRequest a.hwaddr a.ipAddr ethzero b.ipAddr).valid = true from rfl, Bool.not_true,
    if_neg Bool.false_ne_true]
  have hany : ip4AddrIsany b.ipAddr = false := (Bool.or_eq_false_iff.mp (Bool.or_eq_false_iff.mp h.hostB).1).1
  have hfor : (!ip4AddrIsany b.ipAddr && (rawHdr arpRequest a.hwaddr a.ipAddr ethzero b.ipAddr).dipaddr == b.ipAddr) =
      true := by
    rw [hany]
    exact beq_self_eq_true b.ipAddr
  have hfrom : (!ip4AddrIsany b.ipAddr && (rawHdr arpRequest a.hwaddr a.ipAddr ethzero b.ipAddr).sipaddr == b.ipAddr) =
      false := by
    rw [hany]
    exact beq_eq_false_iff_ne.mpr h.ne
  dsimp only
  rw [hfor, hfrom, if_pos rfl, if_pos ⟨rfl, rfl, rfl⟩]
  exact ⟨List.mem_append_right _ (List.mem_singleton_self _), knows_of_update h.hostA (.inl rfl)⟩

/-- A host that waits for an address sends its packet when the reply comes, and knows the other one right after. -/
theorem sends_on_reply {t : ArpTable α} {i : Fin arpTableSize} (h : Neighbours a b) (honly : OnlyFor t i b.ipAddr a.num)
    (hfor : (t i).IsFor b.ipAddr a.num) (hq : (t i).q = some q)
    (hsent : etharpReply mem' (some y) b a.ipAddr a.hwaddr = .ok (mem₂, some g)) (harrives : Arrives mem₂ g memA u us) :
    .dequeue a.num q b.hwaddr ∈ (etharpInputFrame t memA (u :: us) a).2 ∧
      Knows (etharpInputFrame t memA (u :: us) a).1 a b.ipAddr b.hwaddr := by
  have heth : (a.hwaddr ++ b.hwaddr).length = 12 := by rw [List.length_append, h.hwaddrA, h.hwaddrB]
  obtain ⟨mem₃, g', hraw, hbytes⟩ := @etharpRaw_packet arpReply b.hwaddr a.hwaddr b.hwaddr a.hwaddr b.ipAddr a.ipAddr mem'
    y heth h.hwaddrB h.hwaddrA
  rw [etharpReply, hraw] at hsent
  obtain ⟨rfl, hg⟩ := Prod.mk.inj (Except.ok.inj hsent)
  obtain rfl := Option.some.inj hg
  obtain ⟨pad, hpacket⟩ := harrives.packet
  rw [hbytes] at hpacket
  rw [etharpInputFrame_eq t harrives.ok harrives.len h.etharpA heth h.hwaddrB h.hwaddrA hpacket, etharpInput,
    show (rawHdr arpReply b.hwaddr b.ipAddr a.hwaddr a.ipAddr).valid = true from rfl, Bool.not_true,
    if_neg Bool.false_ne_true]
  dsimp only
  generalize (if (!ip4AddrIsany a.ipAddr && (rawHdr arpReply b.hwaddr b.ipAddr a.hwaddr a.ipAddr).dipaddr == a.ipAddr) =
    true then EtharpFlags.tryHard else EtharpFlags.findOnly) = flags
  rw [if_neg (fun h => by cases h.1)]
  exact ⟨dequeue_of_update h.hostB honly hfor hq, knows_of_update h.hostB (.inr ⟨i, hfor⟩)⟩

/-- While a packet waits for a host, its request is replied to, and the reply has the packet sent to that host. -/
theorem arp_resolves (needsCopy : α → Bool) (evs : List (EtharpEvent α)) (tB : ArpTable α) (h : Neighbours a b)
    (hwaits : WaitsFor (etharpRun needsCopy evs).arpTable a b.ipAddr q) (hdst : dst.length = 6)
    (hrequest : etharpRequestDst mem (some x) a b.ipAddr dst = .ok (mem₁, some f)) (hB : Arrives mem₁ f memB r rs)
    (hreply : etharpReply mem' (some y) b a.ipAddr a.hwaddr = .ok (mem₂, some g)) (hA : Arrives mem₂ g memA u us) :
    .reply b.num a.ipAddr a.hwaddr ∈ (etharpInputFrame tB memB (r :: rs) b).2 ∧
      Knows (etharpInputFrame tB memB (r :: rs) b).1 b a.ipAddr a.hwaddr ∧
      .dequeue a.num q b.hwaddr ∈ (etharpInputFrame (etharpRun needsCopy evs).arpTable memA (u :: us) a).2 ∧
      Knows (etharpInputFrame (etharpRun needsCopy evs).arpTable memA (u :: us) a).1 a b.ipAddr b.hwaddr := by
  obtain ⟨i, hfor, hq⟩ := hwaits
  have honly := (arpOk_run needsCopy evs).onlyFor hfor
  obtain ⟨hreplies, hknows⟩ := @replies_to_request α a b mem mem₁ memB r rs f dst x tB h hdst hrequest hB
  exact ⟨hreplies, hknows, sends_on_reply h honly hfor hq hreply hA⟩

end

/-- A frame that arrives in one pbuf -/
theorem arrives_ofBytes {mem : Memory} {f : List StructPbuf} (hlen : (packet mem f).length = 42) :
    Arrives mem f (ofBytes (packet mem f)) ⟨0, 42, 42, .pool, 0⟩ [] := by
  refine ⟨⟨⟨rfl, trivial⟩, by decide⟩, Nat.le_refl _, [], ?_⟩
  have hread := read_ofBytes (packet mem f)
  rw [hlen] at hread
  rw [packet_cons, StructPbuf.bytes, hread]
  rfl

/-- 192.168.1.11 has a packet for 192.168.1.10. -/
theorem arp_resolves_lan : ∃ mem₁ f mem₂ g,
    etharpRequestDst (fun _ => 0#8) (some 100) (lanNetif 11) (lanNetif 10).ipAddr ethbroadcast = .ok (mem₁, some f) ∧
      etharpReply (fun _ => 0#8) (some 100) (lanNetif 10) (lanNetif 11).ipAddr (lanNetif 11).hwaddr = .ok (mem₂, some g) ∧
      .reply 0 (lanNetif 11).ipAddr (lanNetif 11).hwaddr ∈ (etharpInputFrame (Etharp.init : Etharp Nat).arpTable
        (ofBytes (packet mem₁ f)) [⟨0, 42, 42, .pool, 0⟩] (lanNetif 10)).2 ∧
      .dequeue 0 7 (lanNetif 10).hwaddr ∈ (etharpInputFrame (etharpRun (fun _ => false)
        [.output (lanNetif 11) 7 (lanNetif 10).ipAddr true none]).arpTable (ofBytes (packet mem₂ g))
        [⟨0, 42, 42, .pool, 0⟩] (lanNetif 11)).2 := by
  obtain ⟨mem₁, f, hrequest, hf⟩ := @etharpRaw_packet arpRequest (lanNetif 11).hwaddr ethzero (lanNetif 11).hwaddr
    ethbroadcast (lanNetif 11).ipAddr (lanNetif 10).ipAddr (fun _ => 0#8) 100 rfl rfl rfl
  obtain ⟨mem₂, g, hreply, hg⟩ := @etharpRaw_packet arpReply (lanNetif 10).hwaddr (lanNetif 11).hwaddr
    (lanNetif 10).hwaddr (lanNetif 11).hwaddr (lanNetif 10).ipAddr (lanNetif 11).ipAddr (fun _ => 0#8) 100 rfl rfl rfl
  have h : Neighbours (lanNetif 11) (lanNetif 10) := ⟨rfl, rfl, rfl, rfl, by decide, rfl, rfl⟩
  have hresolves := @arp_resolves Nat (lanNetif 11) (lanNetif 10) 7 _ _ mem₁ mem₂ _ _ _ _ _ _ f g _ _ _ (fun _ => false)
    [.output (lanNetif 11) 7 (lanNetif 10).ipAddr true none] (Etharp.init : Etharp Nat).arpTable h
    ⟨⟨0, by decide⟩, ⟨by decide, rfl, rfl⟩, rfl⟩ rfl hrequest (arrives_ofBytes (by rw [hf]; rfl)) hreply
    (arrives_ofBytes (by rw [hg]; rfl))
  exact ⟨mem₁, f, mem₂, g, hrequest, hreply, hresolves.1, hresolves.2.2.1⟩

end YlsFirmware
