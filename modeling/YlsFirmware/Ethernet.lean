import YlsFirmware.Uart

/-! # ethernet.c

`Check_message_YV`: a packet from YV fills the command rows, switches the current packet and has
`udp_send_buf` send `YLSToYVPack[current_tick_tx_eth]`. -/

namespace YlsFirmware
open Packed

/-- The value of an element of the packet, promoted to `int`. -/
def loadYV (rxpak : Memory) (e : Elem YVToYLSField) : BitVec 32 :=
  if yvToYLSData.unit e.field = 2 then (load16 rxpak (yvToYLSData.addr e)).signExtend 32
  else (rxpak (yvToYLSData.addr e)).setWidth 32

def yvCommand (rxpak : Memory) : Byte :=
  let command : Byte := 0x00
  let received := rxpak (yvToYLSData.addr ⟨.command, []⟩)
  if received ≠ 0 then
    let command := if received = yvCommandTest1 then yvCommandTest1 else command
    if received = yvCommandTest2 then yvCommandTest2 else command
  else command

/-- The columns of row `i` that are copied from the packet: the element read and how far its value is
    shifted to the right. -/
def yvColumns (i : Nat) : List (Nat × Elem YVToYLSField × Nat) :=
  [(2, ⟨.ypsMask, [i]⟩, 0),
   (4, ⟨.ykpAngle, [i, 0]⟩, 0),
   (5, ⟨.ykpAngle, [i, 0]⟩, 8),
   (6, ⟨.ykpAngle, [i, 1]⟩, 0),
   (7, ⟨.ykpAngle, [i, 1]⟩, 8)]

def yvByte (rxpak : Memory) (e : Elem YVToYLSField) (shift : Nat) : Byte :=
  ((loadYV rxpak e).sshiftRight shift).setWidth 8

def yvRow (rxpak : Memory) (i : Nat) : List RowStore :=
  .byte i 1 (yvCommand rxpak) ::
    ((yvColumns i).map fun x => .byte i x.1 (yvByte rxpak x.2.1 x.2.2)) ++ [.crc i 15]

def yvRows (rxpak : Memory) : List RowStore := (List.range (inTotalBKD + 1)).flatMap (yvRow rxpak)

/-- The elements of `yps_mask` and `ykp_angle` that the loop reads. -/
def yvReads : List (Elem YVToYLSField) := (List.range (inTotalBKD + 1)).flatMap fun i => (yvColumns i).map (·.2.1)

/-- What `udp_send_buf` is called with: the packet, by reference, and the number of bytes. -/
structure Sent where
  buffer : Fin 2
  size : Nat

def checkMessageYV (s : State) (message : Memory) : State × Sent :=
  let s := (s.storeRows (yvRows message)).switchPacket
  (s, ⟨s.currentTickTxEth, 1432⟩)

/-! ### udp_reciev -/

/-- A `pbuf` as lwIP links them: where its payload lies, and its length. -/
structure Segment where
  payload : Memory
  len : Nat

/-- A chain of them. -/
structure Pbuf where
  first : Segment
  next : List Segment

def Pbuf.totLen (p : Pbuf) : Nat := p.first.len + (p.next.map Segment.len).sum

/-- What the call of `udp_reciev` comes to: the state after it, the payload that `Check_message_YV` is called with, if
    it is called, and how often the chain is freed. -/
structure Received where
  state : State
  interpreted : Option Memory
  freed : Nat

def udpReciev (s : State) : Option Pbuf → Received
  | none => ⟨s, none, 0⟩
  | some p =>
    let r : Received :=
      if sizeMessageYV = p.first.len then ⟨(checkMessageYV s p.first.payload).1, some p.first.payload, 0⟩
      else ⟨s, none, 0⟩
    { r with freed := r.freed + 1 }

/-! ### udp_send_buf -/

/-- The bytes that `udp_send_buf` passes to `udp_sendto`, if there is a socket and `pbuf_alloc` does not fail. The
    length of a pbuf is a `u16_t`. -/
def udpSendBuf (pcb alloc : Bool) (buf : Memory) (size : Nat) : Option (List Byte) :=
  if pcb then if alloc then some (read buf 0 (size % 2 ^ 16)) else none else none

end YlsFirmware
