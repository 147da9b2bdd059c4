import YlsFirmware.Lib.Memory
import Mathlib.Algebra.BigOperators.Group.List.Basic
import Mathlib.Algebra.GroupWithZero.Nat

/-! # pbuf.c

The operations on the headers and the length of a packet. A chain is the list of its pbufs, in the order of their `next` pointers; the
payloads are ranges of one memory. The `u16_t` arithmetic wraps where the source does not exclude it by a test. -/

namespace YlsFirmware
open Packed

/-- `err_t`, the codes that the modelled functions return -/
inductive ErrT where
  | ok | mem | buf | rte | use | arg
deriving DecidableEq

inductive PbufType where
  | ram | rom | ref | pool
deriving DecidableEq

/-- `PBUF_TYPE_FLAG_STRUCT_DATA_CONTIGUOUS` -/
def PbufType.contiguous : PbufType → Bool
  | .ram | .pool => true
  | .rom | .ref => false

/-- `struct pbuf`. `start` is the address behind the structure itself, where the headers in front of the payload end
    if they are contiguous. -/
structure StructPbuf where
  payload : Nat
  totLen : Nat
  len : Nat
  type : PbufType
  start : Nat

def StructPbuf.bytes (mem : Memory) (p : StructPbuf) : List Byte := read mem p.payload p.len

/-- The packet that a chain holds. -/
def packet (mem : Memory) (p : List StructPbuf) : List Byte := p.flatMap (·.bytes mem)

/-- `p->tot_len` of the first pbuf -/
def totLen : List StructPbuf → Nat
  | [] => 0
  | p :: _ => p.totLen

def memAlignSize (size : Nat) : Nat := (size + 3) / 4 * 4

def sizeofStructPbuf : Nat := 16

/-- The pbuf that `pbuf_alloc(layer, length, PBUF_RAM)` makes of the memory at `p` from `mem_malloc` -/
def pbufAllocRam (p layer length : Nat) : StructPbuf where
  payload := memAlignSize (p + sizeofStructPbuf + layer)
  totLen := length
  len := length
  type := .ram
  start := p + sizeofStructPbuf

/-! ### Headers -/

def pbufAddHeaderImpl (p : StructPbuf) (headerSizeIncrement : Nat) (force : Bool) : Option StructPbuf :=
  if 0xFFFF < headerSizeIncrement then none
  else if headerSizeIncrement = 0 then some p
  else if (headerSizeIncrement + p.totLen) % 2 ^ 16 < headerSizeIncrement then none
  else if p.type.contiguous && decide (p.payload < p.start + headerSizeIncrement) then none
  else if !p.type.contiguous && !force then none
  else some { p with
    payload := p.payload - headerSizeIncrement
    len := (p.len + headerSizeIncrement) % 2 ^ 16
    totLen := (p.totLen + headerSizeIncrement) % 2 ^ 16 }

def pbufAddHeader (p : StructPbuf) (n : Nat) : Option StructPbuf := pbufAddHeaderImpl p n false

def pbufRemoveHeader (p : StructPbuf) (headerSizeDecrement : Nat) : Option StructPbuf :=
  if 0xFFFF < headerSizeDecrement then none
  else if headerSizeDecrement = 0 then some p
  else if p.len < headerSizeDecrement then none
  else some { p with
    payload := p.payload + headerSizeDecrement
    len := p.len - headerSizeDecrement
    totLen := (2 ^ 16 + p.totLen - headerSizeDecrement) % 2 ^ 16 }

/-! ### Chains -/

/-- `pbuf_cat`: the total lengths of the first chain grow by that of the second one. -/
def pbufCat (h t : List StructPbuf) : List StructPbuf :=
  h.map (fun p => { p with totLen := (p.totLen + totLen t) % 2 ^ 16 }) ++ t

/-- The loop of `pbuf_realloc` and what follows it: the chain that is left, and the pbufs that have been freed. -/
def pbufReallocLoop (shrink : Nat) : List StructPbuf → Nat → List StructPbuf × List StructPbuf
  | [], _ => ([], [])
  | q :: qs, remLen =>
    if q.len < remLen then
      let (kept, freed) := pbufReallocLoop shrink qs (remLen - q.len)
      ({ q with totLen := (2 ^ 16 + q.totLen - shrink) % 2 ^ 16 } :: kept, freed)
    else ([{ q with len := remLen, totLen := remLen }], qs)

def pbufRealloc (p : List StructPbuf) (newLen : Nat) : List StructPbuf × List StructPbuf :=
  if totLen p ≤ newLen then (p, []) else pbufReallocLoop (totLen p - newLen) p newLen

end YlsFirmware
