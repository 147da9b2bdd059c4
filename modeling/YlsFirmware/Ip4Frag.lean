import YlsFirmware.Ip4

/-! # ip4_frag.c

Reassembly. The chain of a fragment is of any type `α` with a number of pbufs `pbufClen`, up to the datagram that is made
of the fragments in the end; the helper structure that stands in place of its IP header is a record beside it. A list is in
the order of its `next` pointers. -/

namespace YlsFirmware
open Packed

def ipReassMaxPbufs : Nat := 10

def ipReassMaxage : Nat := 15

def mempNumReassdata : Nat := 5

def ipMf : BitVec 16 := 0x2000#16
def ipOffmask : BitVec 16 := 0x1fff#16

/-- `IPH_OFFSET_BYTES` -/
def iphOffsetBytes (iphdr : List Byte) : Nat :=
  ((lwipHtons (iphOffset (ofBytes iphdr) 0) &&& ipOffmask).toNat * 8) % 2 ^ 16

/-- `IPH_ID` -/
def iphId (mem : Memory) (iphdr : Nat) : BitVec 16 := load16 mem (iphdr + 4)

def ipAddressesAndIdMatch (iphdrA iphdrB : List Byte) : Bool :=
  iphSrc (ofBytes iphdrA) 0 == iphSrc (ofBytes iphdrB) 0 && iphDest (ofBytes iphdrA) 0 == iphDest (ofBytes iphdrB) 0 &&
    iphId (ofBytes iphdrA) 0 == iphId (ofBytes iphdrB) 0

/-- `struct ip_reass_helper`, with the chain that it is in -/
structure IpReassHelper (α : Type) where
  p : α
  start : Nat
  /-- `end` -/
  stop : Nat

/-- `struct ip_reassdata` -/
structure IpReassdata (α : Type) where
  p : List (IpReassHelper α)
  iphdr : List Byte
  datagramLen : Nat
  /-- `IP_REASS_FLAG_LASTFRAG` -/
  lastfrag : Bool
  timer : Nat

/-- `reassdatagrams` and `ip_reass_pbufcount` -/
structure IpReass (α : Type) where
  reassdatagrams : List (IpReassdata α)
  pbufcount : Nat

inductive IpReassOut (α : Type) where
  /-- `icmp_time_exceeded`, with the header in front of the first fragment again -/
  | timeExceeded (iphdr : List Byte) (p : α)
  | free (p : α)
deriving DecidableEq

variable {α : Type} (pbufClen : α → Nat)

/-- The number of pbufs of a datagram -/
def IpReassdata.clen (ipr : IpReassdata α) : Nat := (ipr.p.map fun h => pbufClen h.p).sum

/-! ### Datagrams that are given up -/

/-- What `ip_reass_free_complete_datagram` does with the fragments of a datagram. -/
def IpReassdata.frees (ipr : IpReassdata α) : List (IpReassOut α) :=
  (match ipr.p with
    | h :: _ => if h.start = 0 then [.timeExceeded ipr.iphdr h.p] else []
    | [] => []) ++ ipr.p.map fun h => .free h.p

/-- The datagram at place `i`; with the number of pbufs that are freed. -/
def ipReassFreeCompleteDatagram (s : IpReass α) (i : Nat) : IpReass α × List (IpReassOut α) × Nat :=
  match s.reassdatagrams[i]? with
  | none => (s, [], 0)
  | some ipr =>
    let pbufsFreed := ipr.clen pbufClen % 2 ^ 16
    (⟨s.reassdatagrams.eraseIdx i, (2 ^ 16 + s.pbufcount - pbufsFreed) % 2 ^ 16⟩, ipr.frees, pbufsFreed)

/-- The search for the oldest datagram but that of `fraghdr`: its place and timer, and the number of other datagrams -/
def ipReassOldestLoop (fraghdr : List Byte) :
    List (IpReassdata α) → (i : Nat) → (oldest : Option (Nat × Nat)) → (otherDatagrams : Nat) → Option (Nat × Nat) × Nat
  | [], _, oldest, otherDatagrams => (oldest, otherDatagrams)
  | r :: rs, i, oldest, otherDatagrams =>
    if ipAddressesAndIdMatch r.iphdr fraghdr then ipReassOldestLoop fraghdr rs (i + 1) oldest otherDatagrams
    else
      let oldest := match oldest with
        | none => some (i, r.timer)
        | some (j, timer) => if r.timer ≤ timer then some (i, r.timer) else some (j, timer)
      ipReassOldestLoop fraghdr rs (i + 1) oldest (otherDatagrams + 1)

/-- The loop of `ip_reass_remove_oldest_datagram`, which comes to an end after `n` rounds -/
def ipReassRemoveLoop (fraghdr : List Byte) (pbufsNeeded : Nat) :
    (n : Nat) → IpReass α → (pbufsFreed : Nat) → IpReass α × List (IpReassOut α) × Nat
  | 0, s, pbufsFreed => (s, [], pbufsFreed)
  | n + 1, s, pbufsFreed =>
    let (oldest, otherDatagrams) := ipReassOldestLoop fraghdr s.reassdatagrams 0 none 0
    let (s, outs, pbufsFreedCurrent) := match oldest with
      | none => (s, [], 0)
      | some (i, _) => ipReassFreeCompleteDatagram pbufClen s i
    let pbufsFreed := pbufsFreed + pbufsFreedCurrent
    if pbufsFreed < pbufsNeeded ∧ 1 < otherDatagrams then
      let (s, outs', pbufsFreed) := ipReassRemoveLoop fraghdr pbufsNeeded n s pbufsFreed
      (s, outs ++ outs', pbufsFreed)
    else (s, outs, pbufsFreed)

def ipReassRemoveOldestDatagram (s : IpReass α) (fraghdr : List Byte) (pbufsNeeded : Nat) :
    IpReass α × List (IpReassOut α) × Nat :=
  ipReassRemoveLoop pbufClen fraghdr pbufsNeeded (s.reassdatagrams.length + 1) s 0

/-- `ip_reass_tmr`: the timers go down, and a datagram whose timer is at 0 is freed. -/
def ipReassTmr (s : IpReass α) : IpReass α × List (IpReassOut α) :=
  let expired := s.reassdatagrams.filter fun r => r.timer == 0
  (⟨(s.reassdatagrams.filter fun r => r.timer != 0).map fun r => { r with timer := r.timer - 1 },
    expired.foldl (fun c r => (2 ^ 16 + c - r.clen pbufClen % 2 ^ 16) % 2 ^ 16) s.pbufcount⟩,
    expired.flatMap IpReassdata.frees)

/-! ### New fragments -/

/-- `ip_reass_enqueue_new_datagram`: the new datagram is the first one of the list. -/
def ipReassEnqueueNewDatagram (s : IpReass α) (fraghdr : List Byte) (n : Nat) :
    IpReass α × List (IpReassOut α) × Bool :=
  let ipr : IpReassdata α := ⟨[], fraghdr, 0, false, ipReassMaxage⟩
  if s.reassdatagrams.length < mempNumReassdata then ({ s with reassdatagrams := ipr :: s.reassdatagrams }, [], true)
  else
    let (s, outs, pbufsFreed) := ipReassRemoveOldestDatagram pbufClen s fraghdr n
    if n ≤ pbufsFreed ∧ s.reassdatagrams.length < mempNumReassdata then
      ({ s with reassdatagrams := ipr :: s.reassdatagrams }, outs, true)
    else (s, outs, false)

/-- `iprh_prev->end == iprh->start`, or there is no previous fragment. -/
def follows (prev : Option (IpReassHelper α)) (h : IpReassHelper α) : Bool :=
  match prev with
  | none => true
  | some pr => pr.stop == h.start

/-- `iprh->start < iprh_prev->end` -/
def startsInside (iprh : IpReassHelper α) (prev : Option (IpReassHelper α)) : Bool :=
  match prev with
  | none => false
  | some pr => decide (iprh.start < pr.stop)

/-- The loop over the fragments that are there: with the new one in its place, whether there is no hole up to it, and
    the fragments behind it. Nothing stands for a fragment that is dropped. -/
def ipReassInsert (iprh : IpReassHelper α) :
    (prev : Option (IpReassHelper α)) → List (IpReassHelper α) → (valid : Bool) →
      Option (List (IpReassHelper α) × Bool × List (IpReassHelper α))
  | prev, [], valid => some ([iprh], valid && follows prev iprh, [])
  | prev, q :: qs, valid =>
    if iprh.start < q.start then
      if startsInside iprh prev || decide (q.start < iprh.stop) then none
      else some (iprh :: q :: qs, valid && follows prev iprh, q :: qs)
    else if iprh.start = q.start then none
    else if iprh.start < q.stop then none
    else
      match ipReassInsert iprh (some q) qs (valid && follows prev q) with
      | none => none
      | some (l, v, r) => some (q :: l, v, r)

/-- There is no hole behind a fragment. -/
def ipReassNoHoles : IpReassHelper α → List (IpReassHelper α) → Bool
  | _, [] => true
  | prev, q :: qs => prev.stop == q.start && ipReassNoHoles q qs

/-- `ip_reass_chain_frag_into_datagram_and_validate`: the fragments with the new one, and whether all are there. -/
def ipReassChainFrag (ipr : IpReassdata α) (newP : α) (offset len : Nat) (isLast : Bool) :
    Option (List (IpReassHelper α) × Bool) :=
  let iprh : IpReassHelper α := ⟨newP, offset, (offset + len) % 2 ^ 16⟩
  if iprh.stop < offset then none
  else
    match ipReassInsert iprh none ipr.p true with
    | none => none
    | some (l, valid, rest) =>
      let first := match l with
        | h :: _ => h.start == 0
        | [] => false
      some (l, (isLast || ipr.lastfrag) && valid && first && ipReassNoHoles iprh rest)

/-- `ip4_reass` for the datagram at place `i` -/
def ip4ReassChain (s : IpReass α) (i : Nat) (ipr : IpReassdata α) (fraghdr : List Byte) (p : α) (offset len : Nat) :
    IpReass α × List (IpReassOut α) × Option (IpReassdata α) :=
  let isLast := iphOffset (ofBytes fraghdr) 0 &&& lwipHtons ipMf == 0#16
  let datagramLen := (offset + len) % 2 ^ 16
  -- `nullreturn_ipr`
  let dropped := if ipr.p.isEmpty then { s with reassdatagrams := s.reassdatagrams.eraseIdx i } else s
  if isLast && (decide (datagramLen < offset) || decide (0xFFFF - ipHlen < datagramLen)) then (dropped, [.free p], none)
  else
    match ipReassChainFrag ipr p offset len isLast with
    | none => (dropped, [.free p], none)
    | some (l, finished) =>
      let pbufcount := (s.pbufcount + pbufClen p) % 2 ^ 16
      let ipr := { ipr with
        p := l
        datagramLen := if isLast then datagramLen else ipr.datagramLen
        lastfrag := ipr.lastfrag || isLast }
      if finished then
        (⟨s.reassdatagrams.eraseIdx i, (2 ^ 16 + pbufcount - ipr.clen pbufClen % 2 ^ 16) % 2 ^ 16⟩, [], some ipr)
      else (⟨s.reassdatagrams.set i ipr, pbufcount⟩, [], none)

/-- The stored header gives way to that of the first fragment. -/
def IpReassdata.withHeader (ipr : IpReassdata α) (fraghdr : List Byte) : IpReassdata α :=
  if lwipHtons (iphOffset (ofBytes fraghdr) 0) &&& ipOffmask = 0#16 ∧
      lwipHtons (iphOffset (ofBytes ipr.iphdr) 0) &&& ipOffmask ≠ 0#16 then { ipr with iphdr := fraghdr }
  else ipr

/-- `ip4_reass`, with the header of the fragment: the datagram is the result once its fragments are all there. -/
def ip4Reass (s : IpReass α) (fraghdr : List Byte) (p : α) :
    IpReass α × List (IpReassOut α) × Option (IpReassdata α) :=
  if iphHlBytes (ofBytes fraghdr) 0 ≠ ipHlen then (s, [.free p], none)
  else
    let offset := iphOffsetBytes fraghdr
    if iphLen (ofBytes fraghdr) 0 < ipHlen then (s, [.free p], none)
    else
      let len := iphLen (ofBytes fraghdr) 0 - ipHlen
      let (s, outs, allowed) :=
        if ipReassMaxPbufs < s.pbufcount + pbufClen p then
          let (s, outs, pbufsFreed) := ipReassRemoveOldestDatagram pbufClen s fraghdr (pbufClen p)
          (s, outs, pbufsFreed != 0 && decide (s.pbufcount + pbufClen p ≤ ipReassMaxPbufs))
        else (s, [], true)
      if !allowed then (s, outs ++ [.free p], none)
      else
        match s.reassdatagrams.findIdx? fun r => ipAddressesAndIdMatch r.iphdr fraghdr with
        | some i =>
          match s.reassdatagrams[i]? with
          | none => (s, outs ++ [.free p], none)
          | some ipr =>
            let ipr := ipr.withHeader fraghdr
            let s := { s with reassdatagrams := s.reassdatagrams.set i ipr }
            let (s, outs', r) := ip4ReassChain pbufClen s i ipr fraghdr p offset len
            (s, outs ++ outs', r)
        | none =>
          let (s, outs', enqueued) := ipReassEnqueueNewDatagram pbufClen s fraghdr (pbufClen p)
          if enqueued then
            let (s, outs'', r) :=
              ip4ReassChain pbufClen s 0 ⟨[], fraghdr, 0, false, ipReassMaxage⟩ fraghdr p offset len
            (s, outs ++ (outs' ++ outs''), r)
          else (s, outs ++ (outs' ++ [.free p]), none)

/-! ### The datagram -/

/-- A fragment behind another one, without its IP header -/
def ipReassHideHeader : List StructPbuf → List StructPbuf
  | [] => []
  | r :: rs => (pbufRemoveHeader r ipHlen).getD r :: rs

/-- What `ip4_reass` returns for a datagram whose fragments are all there: one chain, with the stored header in front of the
    first fragment again, now with the length of the datagram. -/
def ip4ReassDatagram (mem : Memory) (ipr : IpReassdata (List StructPbuf)) : Memory × List StructPbuf :=
  match ipr.p.map fun h => h.p with
  | (first :: rest) :: rs =>
    let fraghdr := first.payload
    let mem := write mem fraghdr ipr.iphdr
    let mem := write mem (fraghdr + 2) (bytes16 (lwipHtons (BitVec.ofNat 16 (ipr.datagramLen + ipHlen))))
    let mem := write mem (fraghdr + 6) (bytes16 0#16)
    let mem := write mem (fraghdr + 10) (bytes16 0#16)
    let mem := write mem (fraghdr + 10) (bytes16 (inetChksum mem fraghdr ipHlen))
    (mem, rs.foldl (fun p r => pbufCat p (ipReassHideHeader r)) (first :: rest))
  | _ => (mem, [])

end YlsFirmware
