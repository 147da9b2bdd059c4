import YlsFirmware.Ip4Input

/-! # udp.c

The list of UDP PCBs, the datagrams that come in and those that go out. -/

namespace YlsFirmware
open Packed

/-- `struct udp_pcb`; `pcb` tells one from the other as its address does. -/
structure UdpPcb where
  pcb : Nat
  localIp : BitVec 32
  remoteIp : BitVec 32
  netifIdx : Nat
  ttl : BitVec 8
  tos : BitVec 8
  connected : Bool
  nochksum : Bool
  localPort : BitVec 16
  remotePort : BitVec 16
  /-- The callback, if there is one -/
  recv : Option Nat
deriving DecidableEq

def udpHlen : Nat := 8

def udpTtl : BitVec 8 := 255#8

/-! ### PCBs -/

/-- What `memset` and `udp_new` leave in a PCB -/
def udpNew (pcb : Nat) : UdpPcb where
  pcb := pcb
  localIp := 0#32
  remoteIp := 0#32
  netifIdx := 0
  ttl := udpTtl
  tos := 0#8
  connected := false
  nochksum := false
  localPort := 0#16
  remotePort := 0#16
  recv := none

def udpLocalPortRangeStart : Nat := 0xc000
def udpLocalPortRangeEnd : Nat := 0xffff

/-- `udp_port++`, back to the start of the range behind its end -/
def nextUdpPort (udpPort : BitVec 16) : BitVec 16 :=
  if udpPort = BitVec.ofNat 16 udpLocalPortRangeEnd then BitVec.ofNat 16 udpLocalPortRangeStart else udpPort + 1#16

/-- The loop of `udp_new_port`, which looks at one port after the other; `n` ports in use are too many. -/
def udpNewPortLoop (udpPcbs : List UdpPcb) : (n : Nat) → (udpPort : BitVec 16) → BitVec 16 × BitVec 16
  | 0, udpPort => (udpPort, 0#16)
  | n + 1, udpPort =>
    let udpPort := nextUdpPort udpPort
    if udpPcbs.any fun pcb => pcb.localPort == udpPort then
      if n = 0 then (udpPort, 0#16) else udpNewPortLoop udpPcbs n udpPort
    else (udpPort, udpPort)

/-- The last local port, and the new one: 0 if there is none. -/
def udpNewPort (udpPcbs : List UdpPcb) (udpPort : BitVec 16) : BitVec 16 × BitVec 16 :=
  udpNewPortLoop udpPcbs (udpLocalPortRangeEnd - udpLocalPortRangeStart + 1) udpPort

/-- `udp_pcbs`, and `udp_port` -/
structure UdpState where
  udpPcbs : List UdpPcb
  udpPort : BitVec 16

/-- Another PCB that `udp_bind` must not share an address with -/
def udpInUse (pcb ipcb : UdpPcb) (ipaddr : BitVec 32) (port : BitVec 16) : Bool :=
  pcb.pcb != ipcb.pcb && ipcb.localPort == port &&
    (ipcb.localIp == ipaddr || ip4AddrIsany ipaddr || ip4AddrIsany ipcb.localIp)

/-- The PCB on the list, replaced, or put in front of it -/
def udpInsert (udpPcbs : List UdpPcb) (pcb : UdpPcb) : List UdpPcb :=
  if udpPcbs.any fun ipcb => ipcb.pcb == pcb.pcb then
    udpPcbs.map fun ipcb => if ipcb.pcb = pcb.pcb then pcb else ipcb
  else pcb :: udpPcbs

def udpBind (s : UdpState) (pcb : UdpPcb) (ipaddr : BitVec 32) (port : BitVec 16) : UdpState × UdpPcb × ErrT :=
  let (udpPort, port, refused) :=
    if port = 0#16 then
      let (udpPort, port) := udpNewPort s.udpPcbs s.udpPort
      (udpPort, port, decide (port = 0#16))
    else (s.udpPort, port, s.udpPcbs.any fun ipcb => udpInUse pcb ipcb ipaddr port)
  if refused then ({ s with udpPort := udpPort }, pcb, .use)
  else
    let pcb := { pcb with localIp := ipaddr, localPort := port }
    (⟨udpInsert s.udpPcbs pcb, udpPort⟩, pcb, .ok)

def udpConnect (s : UdpState) (pcb : UdpPcb) (ipaddr : BitVec 32) (port : BitVec 16) : UdpState × UdpPcb × ErrT :=
  let (s, pcb, err) := if pcb.localPort = 0#16 then udpBind s pcb pcb.localIp pcb.localPort else (s, pcb, .ok)
  if err ≠ .ok then (s, pcb, err)
  else
    let pcb := { pcb with remoteIp := ipaddr, remotePort := port, connected := true }
    ({ s with udpPcbs := udpInsert s.udpPcbs pcb }, pcb, .ok)

/-- A PCB that changes in place: on the list if it is there -/
def udpUpdate (s : UdpState) (pcb : UdpPcb) : UdpState :=
  { s with udpPcbs := s.udpPcbs.map fun ipcb => if ipcb.pcb = pcb.pcb then pcb else ipcb }

def udpDisconnect (s : UdpState) (pcb : UdpPcb) : UdpState × UdpPcb :=
  let pcb := { pcb with remoteIp := 0#32, remotePort := 0#16, netifIdx := 0, connected := false }
  (udpUpdate s pcb, pcb)

def udpRecv (s : UdpState) (pcb : UdpPcb) (recv : Option Nat) : UdpState × UdpPcb :=
  let pcb := { pcb with recv := recv }
  (udpUpdate s pcb, pcb)

def udpRemove (s : UdpState) (pcb : UdpPcb) : UdpState :=
  { s with udpPcbs := s.udpPcbs.eraseP fun ipcb => ipcb.pcb == pcb.pcb }

def udpNetifIpAddrChanged (s : UdpState) (oldAddr newAddr : BitVec 32) : UdpState :=
  if !ip4AddrIsany oldAddr && !ip4AddrIsany newAddr then
    { s with udpPcbs := s.udpPcbs.map fun upcb => if upcb.localIp = oldAddr then { upcb with localIp := newAddr } else upcb }
  else s

/-! ### Input -/

def udpInputLocalMatch (pcb : UdpPcb) (data : IpData) (broadcast : Bool) : Bool :=
  if pcb.netifIdx ≠ 0 ∧ pcb.netifIdx ≠ (data.currentInputNetif.num + 1) % 2 ^ 8 then false
  else if broadcast then
    ip4AddrIsany pcb.localIp || data.dest == 0xffffffff#32 ||
      ip4AddrNetEq pcb.localIp data.dest data.currentInputNetif.netmask
  else ip4AddrIsany pcb.localIp || pcb.localIp == data.dest

/-- `uncon_pcb` after a PCB that matches the local address -/
def udpUncon (data : IpData) (broadcast : Bool) (pcb : UdpPcb) : Option UdpPcb → Option UdpPcb
  | none => some pcb
  | some uncon =>
    if broadcast && data.dest == 0xffffffff#32 && uncon.localIp != data.currentInputNetif.ipAddr &&
        pcb.localIp == data.currentInputNetif.ipAddr then some pcb
    else some uncon

/-- The loop over the PCBs: the one that matches the source address as well, and the first unconnected one. -/
def udpInputLoop (data : IpData) (broadcast : Bool) (src dest : BitVec 16) :
    List UdpPcb → (uncon : Option UdpPcb) → Option UdpPcb × Option UdpPcb
  | [], uncon => (none, uncon)
  | pcb :: pcbs, uncon =>
    if pcb.localPort == dest && udpInputLocalMatch pcb data broadcast then
      let uncon := if !pcb.connected then udpUncon data broadcast pcb uncon else uncon
      if pcb.remotePort == src && (ip4AddrIsany pcb.remoteIp || pcb.remoteIp == data.src) then (some pcb, uncon)
      else udpInputLoop data broadcast src dest pcbs uncon
    else udpInputLoop data broadcast src dest pcbs uncon

/-- What becomes of a datagram -/
inductive UdpInput where
  | free
  /-- `pcb->recv(pcb->recv_arg, pcb, p, addr, port)` -/
  | recv (callback pcb : Nat) (p : List StructPbuf) (addr : BitVec 32) (port : BitVec 16)
  /-- Not for any PCB; an ICMP message says so, if the address is that of one host. -/
  | unreach (icmp : Bool)

def udpInput (mem : Memory) (s : UdpState) (data : IpData) (p : List StructPbuf) : UdpState × UdpInput :=
  match p with
  | [] => (s, .free)
  | first :: ps =>
    if first.len < udpHlen then (s, .free)
    else
      let udphdr := first.payload
      let broadcast := ip4AddrIsbroadcast data.dest data.currentNetif
      let src := lwipHtons (load16 mem udphdr)
      let dest := lwipHtons (load16 mem (udphdr + 2))
      let (found, uncon) := udpInputLoop data broadcast src dest s.udpPcbs none
      -- the PCB that matches is moved to the front
      let s := match found with
        | some pcb => { s with udpPcbs := pcb :: s.udpPcbs.eraseP fun ipcb => ipcb.pcb == pcb.pcb }
        | none => s
      let pcb := found.or uncon
      let forUs := pcb.isSome || data.currentInputNetif.ipAddr == data.dest
      if forUs then
        if load16 mem (udphdr + 6) ≠ 0#16 ∧
            inetChksumPseudo mem p ipProtoUdp (BitVec.ofNat 16 first.totLen) data.src data.dest ≠ 0#16 then (s, .free)
        else
          match pbufRemoveHeader first udpHlen, pcb with
          | none, _ => (s, .free)
          | some q, some pcb =>
            (s, match pcb.recv with
              | some callback => .recv callback pcb.pcb (q :: ps) data.src src
              | none => .free)
          | some _, none => (s, .unreach (!broadcast && !ip4AddrIsmulticast data.dest))
      else (s, .free)

/-! ### Output -/

/-- `PBUF_IP` -/
def pbufIp : Nat := 34

def udpHeader (src dest len chksum : BitVec 16) : List Byte :=
  bytes16 (lwipHtons src) ++ (bytes16 (lwipHtons dest) ++ (bytes16 (lwipHtons len) ++ bytes16 chksum))

/-- The header and the checksum of the datagram in the chain `q`, whose first pbuf begins with the header. -/
def udpFillHeader (mem : Memory) (q : List StructPbuf) (pcb : UdpPcb) (srcIp dstIp : BitVec 32) (dstPort : BitVec 16) :
    Memory :=
  match q with
  | [] => mem
  | first :: _ =>
    let len := BitVec.ofNat 16 first.totLen
    let mem := write mem first.payload (udpHeader pcb.localPort dstPort len 0#16)
    if pcb.nochksum then mem
    else
      let udpchksum := inetChksumPseudo mem q ipProtoUdp len srcIp dstIp
      let udpchksum := if udpchksum = 0#16 then 0xffff#16 else udpchksum
      write mem first.payload (udpHeader pcb.localPort dstPort len udpchksum)

/-- `udp_sendto_if_src` once the PCB is bound, up to the call of `ip_output_if_src`. `hdr` is the memory that `mem_malloc`
    has for a header that does not fit into the first pbuf of `p`. -/
def udpSendtoBound (mem : Memory) (hdr : Option Nat) (pcb : UdpPcb) (p : List StructPbuf) (dstIp : BitVec 32)
    (dstPort : BitVec 16) (srcIp : BitVec 32) : Except ErrT (Memory × List StructPbuf) :=
  match p with
  | [] => .error .arg
  | first :: ps =>
    if (first.totLen + udpHlen) % 2 ^ 16 < first.totLen then .error .mem
    else
      match pbufAddHeader first udpHlen with
      | some q => .ok (udpFillHeader mem (q :: ps) pcb srcIp dstIp dstPort, q :: ps)
      | none =>
        match hdr with
        | none => .error .mem
        | some hdr =>
          let q := [pbufAllocRam hdr pbufIp udpHlen]
          let q := if first.totLen ≠ 0 then pbufCat q p else q
          .ok (udpFillHeader mem q pcb srcIp dstIp dstPort, q)

/-- `udp_sendto_if_src`: a PCB without a port is bound first. -/
def udpSendtoIfSrc (mem : Memory) (hdr : Option Nat) (s : UdpState) (pcb : UdpPcb) (p : List StructPbuf)
    (dstIp : BitVec 32) (dstPort : BitVec 16) (srcIp : BitVec 32) :
    UdpState × UdpPcb × Except ErrT (Memory × List StructPbuf) :=
  if p.isEmpty then (s, pcb, .error .arg)
  else
    let (s, pcb, err) := if pcb.localPort = 0#16 then udpBind s pcb pcb.localIp pcb.localPort else (s, pcb, .ok)
    if err ≠ .ok then (s, pcb, .error err)
    else (s, pcb, udpSendtoBound mem hdr pcb p dstIp dstPort srcIp)

/-! ### Calls -/

/-- A PCB that a caller can have: one on the list, or one that has not been bound. -/
def UdpState.Held (s : UdpState) (pcb : UdpPcb) : Prop :=
  pcb ∈ s.udpPcbs ∨ pcb.localPort = 0#16 ∧ ∀ ipcb ∈ s.udpPcbs, ipcb.pcb ≠ pcb.pcb

/-- What one call does to the list. An address that an interface changes to is not one that a PCB is bound to. -/
inductive UdpStep : UdpState → UdpState → Prop
  | bind {s : UdpState} {pcb : UdpPcb} (h : s.Held pcb) (ipaddr : BitVec 32) (port : BitVec 16) :
      UdpStep s (udpBind s pcb ipaddr port).1
  | connect {s : UdpState} {pcb : UdpPcb} (h : s.Held pcb) (ipaddr : BitVec 32) (port : BitVec 16) :
      UdpStep s (udpConnect s pcb ipaddr port).1
  | disconnect {s : UdpState} {pcb : UdpPcb} (h : s.Held pcb) : UdpStep s (udpDisconnect s pcb).1
  | recv {s : UdpState} {pcb : UdpPcb} (h : s.Held pcb) (recv : Option Nat) : UdpStep s (udpRecv s pcb recv).1
  | remove {s : UdpState} {pcb : UdpPcb} (h : s.Held pcb) : UdpStep s (udpRemove s pcb)
  | input {s : UdpState} (mem : Memory) (data : IpData) (p : List StructPbuf) : UdpStep s (udpInput mem s data p).1
  | sendto {s : UdpState} {pcb : UdpPcb} (h : s.Held pcb) (mem : Memory) (hdr : Option Nat) (p : List StructPbuf)
      (dstIp : BitVec 32) (dstPort : BitVec 16) (srcIp : BitVec 32) :
      UdpStep s (udpSendtoIfSrc mem hdr s pcb p dstIp dstPort srcIp).1
  | ipAddrChanged {s : UdpState} {newAddr : BitVec 32} (h : ∀ pcb ∈ s.udpPcbs, pcb.localIp ≠ newAddr)
      (oldAddr : BitVec 32) : UdpStep s (udpNetifIpAddrChanged s oldAddr newAddr)

/-- `udp_init` leaves the list empty, and a port of the range. -/
def UdpState.Initial (s : UdpState) : Prop := s.udpPcbs = [] ∧ udpLocalPortRangeStart ≤ s.udpPort.toNat

end YlsFirmware
