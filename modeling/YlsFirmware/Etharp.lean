import YlsFirmware.Ip4
import Mathlib.Data.List.FinRange

/-! # etharp.c

The ARP table: entries are per interface, none is static, and one packet can wait on an entry (`ARP_QUEUEING` is 0).
The packets are of any type `α`. What the functions hand to the link and what they free is a list of outputs. -/

namespace YlsFirmware
open Packed

def arpTableSize : Nat := 10

def arpMaxage : Nat := 300

def arpAgeRerequestUsedUnicast : Nat := arpMaxage - 30

def arpAgeRerequestUsedBroadcast : Nat := arpMaxage - 15

def arpMaxpending : Nat := 5

/-- `struct eth_addr` -/
abbrev EthAddr := List Byte

def ethbroadcast : EthAddr := [0xff, 0xff, 0xff, 0xff, 0xff, 0xff]

def ethzero : EthAddr := [0, 0, 0, 0, 0, 0]

inductive EtharpState where
  | empty | pending | stable | stableRerequesting1 | stableRerequesting2
deriving DecidableEq

/-- `state >= ETHARP_STATE_STABLE` -/
def EtharpState.isStable : EtharpState → Bool
  | .empty | .pending => false
  | .stable | .stableRerequesting1 | .stableRerequesting2 => true

/-- `struct etharp_entry` -/
structure EtharpEntry (α : Type) where
  q : Option α
  ipaddr : BitVec 32
  netif : Nat
  ethaddr : EthAddr
  ctime : Nat
  state : EtharpState

abbrev ArpTable (α : Type) := Fin arpTableSize → EtharpEntry α

/-- `arp_table` and `etharp_cached_entry` -/
structure Etharp (α : Type) where
  arpTable : ArpTable α
  etharpCachedEntry : Fin arpTableSize

inductive EtharpFlags where
  | tryHard | findOnly
deriving DecidableEq

inductive EtharpOut (α : Type) where
  /-- `ethernet_output` of a packet that was just given -/
  | output (netif : Nat) (q : α) (dst : EthAddr)
  /-- A packet that waits from now on -/
  | queue (p : α)
  /-- `ethernet_output` of a packet that has waited -/
  | dequeue (netif : Nat) (p : α) (dst : EthAddr)
  /-- `pbuf_free` of a packet that has waited, and is not sent -/
  | free (p : α)
  /-- `etharp_request_dst` -/
  | request (netif : Nat) (ipaddr : BitVec 32) (dst : EthAddr)
  /-- `etharpReply` -/
  | reply (netif : Nat) (ipaddr : BitVec 32) (dst : EthAddr)
deriving DecidableEq

variable {α : Type}

/-! ### Entries -/

/-- What `etharp_free_entry` leaves in an entry: `LWIP_DEBUG` is defined, so the entry is cleaned out. A null `netif` is
    0, and never read: that of an empty entry does not matter. -/
def EtharpEntry.freed (e : EtharpEntry α) : EtharpEntry α :=
  { e with q := none, state := .empty, ctime := 0, netif := 0, ipaddr := 0#32, ethaddr := ethzero }

/-- The packet of an entry that `etharp_free_entry` frees -/
def EtharpEntry.frees (e : EtharpEntry α) : List (EtharpOut α) := e.q.toList.map .free

/-- The body of the loop of `etharp_tmr` -/
def etharpTmrEntry (e : EtharpEntry α) : EtharpEntry α × List (EtharpOut α) :=
  if e.state = .empty then (e, [])
  else
    let e := { e with ctime := (e.ctime + 1) % 2 ^ 16 }
    if arpMaxage ≤ e.ctime ∨ e.state = .pending ∧ arpMaxpending ≤ e.ctime then (e.freed, e.frees)
    else
      match e.state with
      | .stableRerequesting1 => ({ e with state := .stableRerequesting2 }, [])
      | .stableRerequesting2 => ({ e with state := .stable }, [])
      | .pending => (e, [.request e.netif e.ipaddr ethbroadcast])
      | .stable | .empty => (e, [])

def etharpTmr (t : ArpTable α) : ArpTable α × List (EtharpOut α) :=
  (fun i => (etharpTmrEntry (t i)).1, (List.finRange arpTableSize).flatMap fun i => (etharpTmrEntry (t i)).2)

def etharpCleanupNetif (t : ArpTable α) (netif : Netif) : ArpTable α × List (EtharpOut α) :=
  let gone := fun i => (t i).state ≠ .empty ∧ (t i).netif = netif.num
  (fun i => if gone i then (t i).freed else t i,
    (List.finRange arpTableSize).flatMap fun i => if gone i then (t i).frees else [])

/-! ### etharp_find_entry -/

/-- What the search remembers: the first empty entry, and the oldest ones of each kind with their ages. -/
structure ArpCandidates where
  empty : Option (Fin arpTableSize)
  oldStable : Option (Fin arpTableSize)
  oldPending : Option (Fin arpTableSize)
  oldQueue : Option (Fin arpTableSize)
  ageStable : Nat
  agePending : Nat
  ageQueue : Nat

/-- The search over the entries: one that matches, or the candidates. -/
def etharpFindLoop (t : ArpTable α) (ipaddr : BitVec 32) (netif : Nat) :
    List (Fin arpTableSize) → ArpCandidates → Fin arpTableSize ⊕ ArpCandidates
  | [], c => .inr c
  | i :: is, c =>
    if c.empty = none ∧ (t i).state = .empty then etharpFindLoop t ipaddr netif is { c with empty := some i }
    else if (t i).state ≠ .empty then
      if ipaddr = (t i).ipaddr ∧ netif = (t i).netif then .inl i
      else if (t i).state = .pending then
        if (t i).q.isSome then
          etharpFindLoop t ipaddr netif is
            (if c.ageQueue ≤ (t i).ctime then { c with oldQueue := some i, ageQueue := (t i).ctime } else c)
        else
          etharpFindLoop t ipaddr netif is
            (if c.agePending ≤ (t i).ctime then { c with oldPending := some i, agePending := (t i).ctime } else c)
      else
        etharpFindLoop t ipaddr netif is
          (if c.ageStable ≤ (t i).ctime then { c with oldStable := some i, ageStable := (t i).ctime } else c)
    else etharpFindLoop t ipaddr netif is c

/-- The address of a new entry -/
def EtharpEntry.created (e : EtharpEntry α) (ipaddr : BitVec 32) (netif : Nat) : EtharpEntry α :=
  { e with ipaddr := ipaddr, ctime := 0, netif := netif }

/-- The table after it, what is freed, and the entry: `none` is `ERR_MEM`. -/
def etharpFindEntry (t : ArpTable α) (ipaddr : BitVec 32) (flags : EtharpFlags) (netif : Nat) :
    ArpTable α × List (EtharpOut α) × Option (Fin arpTableSize) :=
  match etharpFindLoop t ipaddr netif (List.finRange arpTableSize) ⟨none, none, none, none, 0, 0, 0⟩ with
  | .inl i => (t, [], some i)
  | .inr c =>
    if flags = .findOnly then (t, [], none)
    else
      match c.empty with
      | some i => (Function.update t i ((t i).created ipaddr netif), [], some i)
      | none =>
        match (c.oldStable.or c.oldPending).or c.oldQueue with
        | none => (t, [], none)
        | some i => (Function.update t i ((t i).freed.created ipaddr netif), (t i).frees, some i)

/-! ### Messages -/

def lwipIanaHwtypeEthernet : BitVec 16 := 1#16
def arpRequest : BitVec 16 := 1#16
def arpReply : BitVec 16 := 2#16

def sizeofEtharpHdr : Nat := 28

/-- `struct etharp_hdr`, as `etharp_raw` fills it in -/
def etharpHeader (opcode : BitVec 16) (hwsrcAddr : EthAddr) (ipsrcAddr : BitVec 32) (hwdstAddr : EthAddr)
    (ipdstAddr : BitVec 32) : List Byte :=
  bytes16 (lwipHtons lwipIanaHwtypeEthernet) ++ (bytes16 (lwipHtons ethtypeIp) ++ ([6#8, 4#8] ++
    (bytes16 (lwipHtons opcode) ++ (hwsrcAddr ++ (bytes32 ipsrcAddr ++ (hwdstAddr ++ bytes32 ipdstAddr))))))

/-- `PBUF_LINK` -/
def pbufLink : Nat := 14

/-- `etharp_raw`, with the memory that `mem_malloc` has for its pbuf: the memory after it, and the frame that
    `ethernet_output` gives to the link. -/
def etharpRaw (mem : Memory) (p : Option Nat) (ethsrcAddr ethdstAddr hwsrcAddr : EthAddr) (ipsrcAddr : BitVec 32)
    (hwdstAddr : EthAddr) (ipdstAddr : BitVec 32) (opcode : BitVec 16) :
    Except ErrT (Memory × Option (List StructPbuf)) :=
  match p with
  | none => .error .mem
  | some p =>
    let p := pbufAllocRam p pbufLink sizeofEtharpHdr
    let mem := write mem p.payload (etharpHeader opcode hwsrcAddr ipsrcAddr hwdstAddr ipdstAddr)
    .ok (ethernetOutput mem [p] ethsrcAddr ethdstAddr ethtypeArp)

def etharpRequestDst (mem : Memory) (p : Option Nat) (netif : Netif) (ipaddr : BitVec 32) (hwDstAddr : EthAddr) :
    Except ErrT (Memory × Option (List StructPbuf)) :=
  etharpRaw mem p netif.hwaddr hwDstAddr netif.hwaddr netif.ipAddr ethzero ipaddr arpRequest

/-- The answer of `etharp_input` to a request of `sipaddr` -/
def etharpReply (mem : Memory) (p : Option Nat) (netif : Netif) (sipaddr : BitVec 32) (shwaddr : EthAddr) :
    Except ErrT (Memory × Option (List StructPbuf)) :=
  etharpRaw mem p netif.hwaddr shwaddr netif.hwaddr netif.ipAddr shwaddr sipaddr arpReply

/-! ### Input -/

/-- An entry whose address has been learned; its packet is gone. -/
def EtharpEntry.learned (e : EtharpEntry α) (netif : Nat) (ethaddr : EthAddr) : EtharpEntry α :=
  { e with state := .stable, netif := netif, ethaddr := ethaddr, ctime := 0, q := none }

def etharpUpdateArpEntry (t : ArpTable α) (netif : Netif) (ipaddr : BitVec 32) (ethaddr : EthAddr)
    (flags : EtharpFlags) : ArpTable α × List (EtharpOut α) × ErrT :=
  if ip4AddrIsany ipaddr || ip4AddrIsbroadcast ipaddr netif || ip4AddrIsmulticast ipaddr then (t, [], .arg)
  else
    match etharpFindEntry t ipaddr flags netif.num with
    | (t, outs, none) => (t, outs, .mem)
    | (t, outs, some i) =>
      (Function.update t i ((t i).learned netif.num ethaddr),
        outs ++ (t i).q.toList.map fun p => .dequeue netif.num p ethaddr, .ok)

/-- `struct etharp_hdr` -/
structure EtharpHdr where
  hwtype : BitVec 16
  proto : BitVec 16
  hwlen : BitVec 8
  protolen : BitVec 8
  opcode : BitVec 16
  shwaddr : EthAddr
  sipaddr : BitVec 32
  dhwaddr : EthAddr
  dipaddr : BitVec 32

/-- The header at an address -/
def etharpHdr (mem : Memory) (a : Nat) : EtharpHdr where
  hwtype := load16 mem a
  proto := load16 mem (a + 2)
  hwlen := mem (a + 4)
  protolen := mem (a + 5)
  opcode := load16 mem (a + 6)
  shwaddr := read mem (a + 8) 6
  sipaddr := load32 mem (a + 14)
  dhwaddr := read mem (a + 18) 6
  dipaddr := load32 mem (a + 24)

/-- The headers that `etharp_input` does not drop -/
def EtharpHdr.valid (hdr : EtharpHdr) : Bool :=
  hdr.hwtype == lwipHtons lwipIanaHwtypeEthernet && hdr.hwlen == 6#8 && hdr.protolen == 4#8 &&
    hdr.proto == lwipHtons ethtypeIp

def etharpInput (t : ArpTable α) (hdr : EtharpHdr) (netif : Netif) : ArpTable α × List (EtharpOut α) :=
  if !hdr.valid then (t, [])
  else
    let configured := !ip4AddrIsany netif.ipAddr
    let forUs := configured && hdr.dipaddr == netif.ipAddr
    let fromUs := configured && hdr.sipaddr == netif.ipAddr
    let (t, outs, _) := etharpUpdateArpEntry t netif hdr.sipaddr hdr.shwaddr (if forUs then .tryHard else .findOnly)
    if hdr.opcode = lwipHtons arpRequest ∧ forUs = true ∧ fromUs = false then
      (t, outs ++ [.reply netif.num hdr.sipaddr hdr.shwaddr])
    else (t, outs)

/-- What `ethernet_input` does with a message. -/
def etharpInputFrame (t : ArpTable α) (mem : Memory) (p : List StructPbuf) (netif : Netif) :
    ArpTable α × List (EtharpOut α) :=
  match ethernetInput mem p netif with
  | .arp (q :: _) => etharpInput t (etharpHdr mem q.payload) netif
  | .arp [] | .ip _ | .free => (t, [])

/-! ### Output -/

/-- What `etharp_output` and `etharp_query` return: an error code, or what `ethernet_output` returns. -/
inductive EtharpResult where
  | err (e : ErrT)
  | link
deriving DecidableEq

/-- `requestOk` tells whether there is a pbuf for a request. -/
def etharpOutputToArpIndex (t : ArpTable α) (netif : Netif) (q : α) (arpIdx : Fin arpTableSize) (requestOk : Bool) :
    ArpTable α × List (EtharpOut α) :=
  let e := t arpIdx
  let out := .output netif.num q e.ethaddr
  if e.state = .stable ∧ arpAgeRerequestUsedUnicast ≤ e.ctime then
    let dst := if arpAgeRerequestUsedBroadcast ≤ e.ctime then ethbroadcast else e.ethaddr
    if requestOk then
      (Function.update t arpIdx { e with state := .stableRerequesting1 }, [.request netif.num e.ipaddr dst, out])
    else (t, [out])
  else (t, [out])

/-- The entry of a query: a new one is pending from now on, and a request without a packet makes a pending one young. -/
def EtharpEntry.queried (e : EtharpEntry α) (netif : Nat) (noPacket requestOk : Bool) : EtharpEntry α :=
  if e.state = .empty then { e with state := .pending, netif := netif }
  else if noPacket = true ∧ requestOk = true ∧ e.state = .pending then { e with ctime := 0 }
  else e

/-- `clone` is what `pbuf_clone` gives for a packet that needs to be copied. -/
def etharpQuery (needsCopy : α → Bool) (s : Etharp α) (netif : Netif) (ipaddr : BitVec 32) (q : Option α)
    (requestOk : Bool) (clone : Option α) : Etharp α × List (EtharpOut α) × EtharpResult :=
  if ip4AddrIsbroadcast ipaddr netif || ip4AddrIsmulticast ipaddr || ip4AddrIsany ipaddr then (s, [], .err .arg)
  else
    match etharpFindEntry s.arpTable ipaddr .tryHard netif.num with
    | (t, outs, none) => ({ s with arpTable := t }, outs, .err .mem)
    | (t, outs, some i) =>
      let asks := decide ((t i).state = .empty) || q.isNone
      let outs := if asks && requestOk then outs ++ [.request netif.num ipaddr ethbroadcast] else outs
      let e := (t i).queried netif.num q.isNone requestOk
      match q with
      | none => ({ s with arpTable := Function.update t i e }, outs, .err (if requestOk then .ok else .mem))
      | some q =>
        if e.state.isStable then
          (⟨Function.update t i e, i⟩, outs ++ [.output netif.num q e.ethaddr], .link)
        else
          match (if needsCopy q then clone else some q) with
          | none => ({ s with arpTable := Function.update t i e }, outs, .err .mem)
          | some p =>
            ({ s with arpTable := Function.update t i { e with q := some p } }, outs ++ (e.frees ++ [.queue p]), .err .ok)

def ip4AddrIslinklocal (addr : BitVec 32) : Bool := (addr &&& 0x0000ffff#32) == 0x0000fea9#32

/-- The Ethernet address of an IP multicast address -/
def mcastaddr (ipaddr : BitVec 32) : EthAddr :=
  [0x01, 0x00, 0x5e, ((ipaddr >>> 8).setWidth 8) &&& 0x7f, (ipaddr >>> 16).setWidth 8, (ipaddr >>> 24).setWidth 8]

/-- `dst_addr` of a packet to one host: the host itself or the gateway, or no route -/
def etharpDstAddr (netif : Netif) (ipaddr : BitVec 32) : Option (BitVec 32) :=
  if !ip4AddrNetEq ipaddr netif.ipAddr netif.netmask && !ip4AddrIslinklocal ipaddr then
    if !ip4AddrIsany netif.gw then some netif.gw else none
  else some ipaddr

/-- A stable entry for an address -/
def EtharpEntry.resolves (e : EtharpEntry α) (netif : Nat) (dstAddr : BitVec 32) : Bool :=
  e.state.isStable && e.netif == netif && dstAddr == e.ipaddr

def etharpOutput (needsCopy : α → Bool) (s : Etharp α) (netif : Netif) (q : α) (ipaddr : BitVec 32)
    (requestOk : Bool) (clone : Option α) : Etharp α × List (EtharpOut α) × EtharpResult :=
  if ip4AddrIsbroadcast ipaddr netif then (s, [.output netif.num q ethbroadcast], .link)
  else if ip4AddrIsmulticast ipaddr then (s, [.output netif.num q (mcastaddr ipaddr)], .link)
  else
    match etharpDstAddr netif ipaddr with
    | none => (s, [], .err .rte)
    | some dstAddr =>
      let i := if (s.arpTable s.etharpCachedEntry).resolves netif.num dstAddr then some s.etharpCachedEntry
        else (List.finRange arpTableSize).find? fun i => (s.arpTable i).resolves netif.num dstAddr
      match i with
      | some i =>
        let (t, outs) := etharpOutputToArpIndex s.arpTable netif q i requestOk
        (⟨t, i⟩, outs, .link)
      | none => etharpQuery needsCopy s netif dstAddr (some q) requestOk clone

/-! ### Runs -/

inductive EtharpEvent (α : Type) where
  | tmr
  | input (netif : Netif) (hdr : EtharpHdr)
  | output (netif : Netif) (q : α) (ipaddr : BitVec 32) (requestOk : Bool) (clone : Option α)
  | query (netif : Netif) (ipaddr : BitVec 32) (q : Option α) (requestOk : Bool) (clone : Option α)
  | cleanupNetif (netif : Netif)

def etharpStep (needsCopy : α → Bool) (s : Etharp α) : EtharpEvent α → Etharp α × List (EtharpOut α)
  | .tmr =>
    let (t, outs) := etharpTmr s.arpTable
    ({ s with arpTable := t }, outs)
  | .input netif hdr =>
    let (t, outs) := etharpInput s.arpTable hdr netif
    ({ s with arpTable := t }, outs)
  | .output netif q ipaddr requestOk clone =>
    let (s, outs, _) := etharpOutput needsCopy s netif q ipaddr requestOk clone
    (s, outs)
  | .query netif ipaddr q requestOk clone =>
    let (s, outs, _) := etharpQuery needsCopy s netif ipaddr q requestOk clone
    (s, outs)
  | .cleanupNetif netif =>
    let (t, outs) := etharpCleanupNetif s.arpTable netif
    ({ s with arpTable := t }, outs)

/-- The table at start, all zeros -/
def Etharp.init : Etharp α := ⟨fun _ => ⟨none, 0#32, 0, ethzero, 0, .empty⟩, ⟨0, by decide⟩⟩

end YlsFirmware
