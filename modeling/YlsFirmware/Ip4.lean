import YlsFirmware.Inet

/-! # ip4_addr.c, ip4.c, ethernet.c

The IPv4 layer as it is configured here: no forwarding, no IGMP, no loopback, checksums in software. Addresses are
words as the CPU reads them from a header in network byte order. What `ethernet_input` calls in the end is its result.
`ip4_input` has a module of its own, since it calls `ip4_reass`. -/

namespace YlsFirmware
open Packed

/-- `struct netif` -/
structure Netif where
  num : Nat
  ipAddr : BitVec 32
  netmask : BitVec 32
  gw : BitVec 32
  hwaddr : List Byte
  mtu : Nat
  up : Bool
  broadcast : Bool
  etharp : Bool
deriving DecidableEq

/-- An interface 192.168.1.n -/
def lanNetif (n : Nat) : Netif where
  num := 0
  ipAddr := BitVec.ofNat 32 (0x0001A8C0 + n * 2 ^ 24)
  netmask := 0x00FFFFFF#32
  gw := 0#32
  hwaddr := [2, 0, 0, 0, 0, BitVec.ofNat 8 n]
  mtu := 1500
  up := true
  broadcast := true
  etharp := true

def ip4AddrIsany (addr : BitVec 32) : Bool := addr == 0#32

def ip4AddrNetEq (addr₁ addr₂ mask : BitVec 32) : Bool := (addr₁ &&& mask) == (addr₂ &&& mask)

def ip4AddrIsmulticast (addr : BitVec 32) : Bool := (addr &&& 0x000000f0#32) == 0x000000e0#32

def ip4AddrIsloopback (addr : BitVec 32) : Bool := (addr &&& 0x000000ff#32) == 0x0000007f#32

/-- `ip4_addr_isbroadcast_u32` -/
def ip4AddrIsbroadcast (addr : BitVec 32) (netif : Netif) : Bool :=
  if ~~~addr = 0#32 ∨ addr = 0#32 then true
  else if !netif.broadcast then false
  else if addr = netif.ipAddr then false
  else ip4AddrNetEq addr netif.ipAddr netif.netmask && ((addr &&& ~~~netif.netmask) == (0xffffffff#32 &&& ~~~netif.netmask))

/-! ### Header -/

def ipHlen : Nat := 20

/-- `IPH_V` -/
def iphV (mem : Memory) (iphdr : Nat) : BitVec 8 := mem iphdr >>> 4

/-- `IPH_HL_BYTES` -/
def iphHlBytes (mem : Memory) (iphdr : Nat) : Nat := (mem iphdr &&& 0x0f#8).toNat * 4

/-- `lwip_ntohs(IPH_LEN(iphdr))` -/
def iphLen (mem : Memory) (iphdr : Nat) : Nat := (lwipHtons (load16 mem (iphdr + 2))).toNat

/-- `IPH_OFFSET`, in network byte order -/
def iphOffset (mem : Memory) (iphdr : Nat) : BitVec 16 := load16 mem (iphdr + 6)

def iphProto (mem : Memory) (iphdr : Nat) : BitVec 8 := mem (iphdr + 9)

def iphSrc (mem : Memory) (iphdr : Nat) : BitVec 32 := load32 mem (iphdr + 12)

def iphDest (mem : Memory) (iphdr : Nat) : BitVec 32 := load32 mem (iphdr + 16)

def ipProtoUdp : BitVec 8 := 17#8

/-! ### Output -/

/-- The IP header with the checksum `chksum`. -/
def ipHeader (tos : BitVec 8) (len id : BitVec 16) (ttl proto : BitVec 8) (chksum : BitVec 16) (src dest : BitVec 32) :
    List Byte :=
  [0x45#8, tos] ++ (bytes16 (lwipHtons len) ++ (bytes16 (lwipHtons id) ++ (bytes16 0#16 ++ ([ttl, proto] ++
    (bytes16 chksum ++ (bytes32 src ++ bytes32 dest))))))

/-- The checksum that `ip4_output_if_opt_src` adds up while it fills the header in. -/
def ipChksumInline (tos : BitVec 8) (len id : BitVec 16) (ttl proto : BitVec 8) (src dest : BitVec 32) : BitVec 16 :=
  let chkSum := 0#32
  let chkSum := chkSum + (lwipHtons (proto.setWidth 16 ||| (ttl.setWidth 16 <<< 8))).setWidth 32
  let chkSum := chkSum + (dest &&& 0xFFFF#32)
  let chkSum := chkSum + (dest >>> 16)
  let chkSum := chkSum + (lwipHtons (tos.setWidth 16 ||| ((0x45#8).setWidth 16 <<< 8))).setWidth 32
  let chkSum := chkSum + (lwipHtons len).setWidth 32
  let chkSum := chkSum + (lwipHtons id).setWidth 32
  let chkSum := chkSum + (src &&& 0xFFFF#32)
  let chkSum := chkSum + (src >>> 16)
  let chkSum := (chkSum >>> 16) + (chkSum &&& 0xFFFF#32)
  let chkSum := (chkSum >>> 16) + chkSum
  (~~~chkSum).setWidth 16

/-- What is given to `netif->output`, or to `ip4_frag` if it is too long for the interface. -/
inductive Ip4Output where
  | err (e : ErrT)
  | output (p : List StructPbuf) (dest : BitVec 32)
  | frag (p : List StructPbuf) (dest : BitVec 32)

/-- `ip4_output_if_src`, with the memory after it and the next `ip_id` -/
def ip4OutputIfSrc (mem : Memory) (ipId : BitVec 16) (p : List StructPbuf) (src dest : BitVec 32) (ttl tos : BitVec 8)
    (proto : BitVec 8) (netif : Netif) : Memory × BitVec 16 × Ip4Output :=
  match p with
  | [] => (mem, ipId, .err .arg)
  | first :: ps =>
    match pbufAddHeader first ipHlen with
    | none => (mem, ipId, .err .buf)
    | some q =>
      let len := BitVec.ofNat 16 q.totLen
      let mem := write mem q.payload (ipHeader tos len ipId ttl proto (ipChksumInline tos len ipId ttl proto src dest) src dest)
      (mem, ipId + 1,
        if netif.mtu ≠ 0 ∧ netif.mtu < q.totLen then .frag (q :: ps) dest else .output (q :: ps) dest)

/-! ### Ethernet -/

def sizeofEthHdr : Nat := 14

def ethtypeIp : BitVec 16 := 0x0800#16
def ethtypeArp : BitVec 16 := 0x0806#16

/-- What the frame is passed to -/
inductive EthernetInput where
  | free
  /-- `ip4_input` -/
  | ip (p : List StructPbuf)
  /-- `etharp_input` -/
  | arp (p : List StructPbuf)

def ethernetInput (mem : Memory) (p : List StructPbuf) (netif : Netif) : EthernetInput :=
  match p with
  | [] => .free
  | first :: ps =>
    if first.len ≤ sizeofEthHdr then .free
    else
      let type := load16 mem (first.payload + 12)
      if type = lwipHtons ethtypeIp then
        if !netif.etharp then .free
        else
          match pbufRemoveHeader first sizeofEthHdr with
          | none => .free
          | some q => .ip (q :: ps)
      else if type = lwipHtons ethtypeArp then
        if !netif.etharp then .free
        else
          match pbufRemoveHeader first sizeofEthHdr with
          | none => .free
          | some q => .arp (q :: ps)
      else .free

/-- `ethernet_output`: the memory after it, and the chain given to `netif->linkoutput` -/
def ethernetOutput (mem : Memory) (p : List StructPbuf) (src dst : List Byte) (ethType : BitVec 16) :
    Memory × Option (List StructPbuf) :=
  match p with
  | [] => (mem, none)
  | first :: ps =>
    match pbufAddHeader first sizeofEthHdr with
    | none => (mem, none)
    | some q => (write mem q.payload (dst ++ (src ++ bytes16 (lwipHtons ethType))), some (q :: ps))

end YlsFirmware
