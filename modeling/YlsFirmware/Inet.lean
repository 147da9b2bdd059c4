import YlsFirmware.Pbuf

/-! # inet_chksum.c

The Internet checksum of lwIP, in software: `LWIP_CHKSUM_ALGORITHM` is 2, and the CPU stores words little-endian. -/

namespace YlsFirmware
open Packed

/-- `lwip_htons`, and `lwip_ntohs` -/
def lwipHtons (n : BitVec 16) : BitVec 16 := ((n &&& 0x00ff#16) <<< 8) ||| ((n &&& 0xff00#16) >>> 8)

/-- `FOLD_U32T` -/
def foldU32T (u : BitVec 32) : BitVec 32 := (u >>> 16) + (u &&& 0x0000ffff#32)

/-- `SWAP_BYTES_IN_WORD` -/
def swapBytesInWord (w : BitVec 32) : BitVec 32 := ((w &&& 0xff#32) <<< 8) ||| ((w &&& 0xff00#32) >>> 8)

/-- The loop of `lwip_standard_chksum` over the words, from `ps` on -/
def chksumWords (mem : Memory) : (ps len : Nat) → BitVec 32 → Nat × BitVec 32
  | ps, len + 2, sum => chksumWords mem (ps + 2) len (sum + (load16 mem ps).setWidth 32)
  | ps, _, sum => (ps, sum)

def lwipStandardChksum (mem : Memory) (dataptr len : Nat) : BitVec 16 :=
  let odd := decide (dataptr % 2 = 1)
  let first := odd && decide (0 < len)
  -- the bytes of `t`, high and low
  let t₁ : Byte := if first then mem dataptr else 0#8
  let pb := if first then dataptr + 1 else dataptr
  let len := if first then len - 1 else len
  let (ps, sum) := chksumWords mem pb len 0#32
  let t₀ : Byte := if len % 2 = 1 then mem ps else 0#8
  let sum := sum + (t₁ ++ t₀).setWidth 32
  let sum := foldU32T (foldU32T sum)
  let sum := if odd then swapBytesInWord sum else sum
  sum.setWidth 16

/-- The loop over a chain; `swapped` tells whether the sum is that of an odd number of bytes. -/
def chksumChain (mem : Memory) : List StructPbuf → (swapped : Bool) → (acc : BitVec 32) → Bool × BitVec 32
  | [], swapped, acc => (swapped, acc)
  | q :: qs, swapped, acc =>
    let acc := foldU32T (acc + (lwipStandardChksum mem q.payload q.len).setWidth 32)
    if q.len % 2 ≠ 0 then chksumChain mem qs (!swapped) (swapBytesInWord acc) else chksumChain mem qs swapped acc

def inetCksumPseudoBase (mem : Memory) (p : List StructPbuf) (proto : BitVec 8) (protoLen : BitVec 16)
    (acc : BitVec 32) : BitVec 16 :=
  let (swapped, acc) := chksumChain mem p false acc
  let acc := if swapped then swapBytesInWord acc else acc
  let acc := acc + (lwipHtons (proto.setWidth 16)).setWidth 32
  let acc := acc + (lwipHtons protoLen).setWidth 32
  let acc := foldU32T (foldU32T acc)
  ~~~(acc &&& 0xffff#32).setWidth 16

/-- The addresses are in network byte order. -/
def inetChksumPseudo (mem : Memory) (p : List StructPbuf) (proto : BitVec 8) (protoLen : BitVec 16)
    (src dest : BitVec 32) : BitVec 16 :=
  let acc := src &&& 0xffff#32
  let acc := acc + ((src >>> 16) &&& 0xffff#32)
  let acc := acc + (dest &&& 0xffff#32)
  let acc := acc + ((dest >>> 16) &&& 0xffff#32)
  inetCksumPseudoBase mem p proto protoLen (foldU32T (foldU32T acc))

def inetChksum (mem : Memory) (dataptr len : Nat) : BitVec 16 := ~~~(lwipStandardChksum mem dataptr len)

end YlsFirmware
