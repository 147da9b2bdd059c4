import YlsFirmware.Ip4Frag

/-! # ip4.c: ip4_input

A packet is checked first. Then it goes to the protocol that it is for, a fragment by way of the datagrams that
`ip4_reass` puts together. What is called in the end is the result. -/

namespace YlsFirmware
open Packed

/-- `ip_data`, while a packet is processed -/
structure IpData where
  currentNetif : Netif
  currentInputNetif : Netif
  src : BitVec 32
  dest : BitVec 32
  headerTotLen : Nat

def ip4InputAccept (netif : Netif) (dest : BitVec 32) : Bool :=
  netif.up && !ip4AddrIsany netif.ipAddr && (dest == netif.ipAddr || ip4AddrIsbroadcast dest netif)

/-- The interface that the packet is for. -/
def ip4InputNetif (netifList : List Netif) (inp : Netif) (dest : BitVec 32) : Option Netif :=
  if ip4AddrIsmulticast dest then if inp.up && !ip4AddrIsany inp.ipAddr then some inp else none
  else if ip4InputAccept inp dest then some inp
  else if !ip4AddrIsloopback dest then
    netifList.find? fun netif => netif.num != inp.num && ip4InputAccept netif dest
  else none

/-- `IP_ACCEPT_LINK_LAYER_ADDRESSED_PORT`, for a packet to the DHCP client -/
def ip4AcceptDhcp (mem : Memory) (iphdr hlen : Nat) : Bool :=
  iphProto mem iphdr == ipProtoUdp && load16 mem (iphdr + hlen + 2) == lwipHtons 68#16

/-- A packet that has passed the checks of `ip4_input`, with the length of its header -/
structure Ip4Packet where
  netif : Netif
  src : BitVec 32
  dest : BitVec 32
  hlen : Nat
  p : StructPbuf
  ps : List StructPbuf

/-- The checks of a chain, once its first header is known to be whole and its length to be right. Nothing stands for a packet
    that is freed. -/
def ip4InputChecked (netifList : List Netif) (mem : Memory) (p : StructPbuf) (ps : List StructPbuf) (inp : Netif)
    (hlen : Nat) : Option Ip4Packet :=
  let iphdr := p.payload
  if inetChksum mem iphdr hlen ≠ 0#16 then none
  else
    let dest := iphDest mem iphdr
    let src := iphSrc mem iphdr
    let found := ip4InputNetif netifList inp dest
    let dhcp := found.isNone && ip4AcceptDhcp mem iphdr hlen
    let found := if dhcp then some inp else found
    let checkIpSrc := !dhcp
    if checkIpSrc && !ip4AddrIsany src && (ip4AddrIsbroadcast src inp || ip4AddrIsmulticast src) then none
    else found.map fun netif => ⟨netif, src, dest, hlen, p, ps⟩

/-- `ip4_input` up to the test for a fragment -/
def ip4InputPacket (netifList : List Netif) (mem : Memory) (p : List StructPbuf) (inp : Netif) : Option Ip4Packet :=
  match p with
  | [] => none
  | first :: _ =>
    let iphdr := first.payload
    if iphV mem iphdr ≠ 4#8 then none
    else
      let hlen := iphHlBytes mem iphdr
      let len := iphLen mem iphdr
      match (if len < totLen p then (pbufRealloc p len).1 else p) with
      | [] => none
      | p :: ps =>
        if p.len < hlen || decide (p.totLen < len) || decide (hlen < ipHlen) then none
        else ip4InputChecked netifList mem p ps inp hlen

inductive Ip4Input where
  | free
  /-- `ip4_reass` has not returned a datagram. -/
  | reass
  /-- The input function of the protocol, with the IP header removed -/
  | upper (proto : BitVec 8) (data : IpData) (p : List StructPbuf)

/-- `ip4_input` from there on, with the packet or the datagram that it is a fragment of -/
def ip4InputUpper (mem : Memory) (x : Ip4Packet) (inp : Netif) : List StructPbuf → Ip4Input
  | [] => .free
  | p :: ps =>
    .upper (iphProto mem p.payload) ⟨x.netif, inp, x.src, x.dest, iphHlBytes mem p.payload⟩
      ((pbufRemoveHeader p x.hlen).getD p :: ps)

/-- What `ip4_input` works on: the memory, and the fragments that are queued -/
structure Ip4State where
  mem : Memory
  reass : IpReass (List StructPbuf)

/-- `(IPH_OFFSET(iphdr) & PP_HTONS(IP_OFFMASK | IP_MF)) != 0` -/
def isFragment (mem : Memory) (iphdr : Nat) : Bool := iphOffset mem iphdr &&& lwipHtons 0x3fff#16 != 0#16

def ip4Input (netifList : List Netif) (s : Ip4State) (p : List StructPbuf) (inp : Netif) :
    Ip4State × List (IpReassOut (List StructPbuf)) × Ip4Input :=
  match ip4InputPacket netifList s.mem p inp with
  | none => (s, [], .free)
  | some x =>
    if isFragment s.mem x.p.payload then
      match ip4Reass List.length s.reass (read s.mem x.p.payload ipHlen) (x.p :: x.ps) with
      | (reass, outs, none) => (⟨s.mem, reass⟩, outs, .reass)
      | (reass, outs, some ipr) =>
        let (mem, p) := ip4ReassDatagram s.mem ipr
        (⟨mem, reass⟩, outs, ip4InputUpper mem x inp p)
    else (s, [], ip4InputUpper s.mem x inp (x.p :: x.ps))

end YlsFirmware
