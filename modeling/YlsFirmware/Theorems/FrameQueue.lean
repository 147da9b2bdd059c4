import YlsFirmware.Enet
import YlsFirmware.Theorems.Segments

/-! # The receive descriptors as a queue

What the DMA leaves behind in a descriptor is a frame. Up to the copying, the ring of descriptors is a queue of
frames: the DMA appends to it, and the main loop looks at its front and takes from it, in any order of steps. -/

namespace YlsFirmware
open Packed

/-- What the DMA has left behind in a descriptor and its buffer. -/
structure Frame where
  status : BitVec 32
  bytes : List Byte

/-- The frame has an error, or it is not in this descriptor alone. -/
def Frame.bad (f : Frame) : Bool :=
  (f.status.getLsbD rdes0Errs || !f.status.getLsbD rdes0Ldes || !f.status.getLsbD rdes0Fdes) ||
    (f.status.getLsbD rdes0Frmt && f.status.getLsbD rdes0Pcerr)

/-- What `enet_rxframe_size_get` returns for a frame that is not bad. -/
def Frame.size (tfcd : Bool) (f : Frame) : Nat :=
  (if tfcd && f.status.getLsbD rdes0Frmt then getRdes0Frml f.status - 4 + 4 else getRdes0Frml f.status - 4).toNat

/-- The length that `low_level_input` reads. -/
def Frame.length (tfcd : Bool) (f : Frame) : Nat := (rxdescFrameLength tfcd f.status).toNat % 2 ^ 16

/-! ### The queue -/

/-- What becomes of a frame: it is handed to lwIP, dropped by `enet_rxframe_size_get`, lost for want of memory, or
    given back without having been looked at. -/
inductive Fate where
  | handed
  | dropped
  | noMemory
  | unread
deriving DecidableEq

def Fate.of (f : Option Frame) (ok : Bool) : Fate :=
  match f with
  | none => .unread
  | some _ => if ok then .handed else .noMemory

inductive QueuePc where
  | idle
  | input
  | alloc (f : Option Frame)
  | receive (f : Option Frame) (ok : Bool)

structure FrameQueue where
  waiting : List Frame
  pc : QueuePc
  /-- what has been taken from the queue so far -/
  taken : List (Frame × Fate)

def FrameQueue.init : FrameQueue := ⟨[], .idle, []⟩

inductive QueueEvent where
  | arrive (f : Frame)
  | sizeGet
  | length
  | alloc (ok : Bool)
  | receive

def queueStep (tfcd : Bool) (least : Nat) (y : FrameQueue) : QueueEvent → FrameQueue
  | .arrive f => { y with waiting := y.waiting ++ [f] }
  | .sizeGet =>
    match y.pc, y.waiting with
    | .idle, f :: fs =>
      if f.bad then
        { waiting := fs, pc := if least < 1 then .input else .idle, taken := y.taken ++ [(f, .dropped)] }
      else { y with pc := if least < f.size tfcd then .input else .idle }
    | _, _ => y
  | .length =>
    match y.pc with
    | .input => { y with pc := .alloc y.waiting.head? }
    | _ => y
  | .alloc ok =>
    match y.pc with
    | .alloc f => { y with pc := .receive f ok }
    | _ => y
  | .receive =>
    match y.pc, y.waiting with
    | .receive c ok, f :: fs => { waiting := fs, pc := .idle, taken := y.taken ++ [(f, Fate.of c ok)] }
    | .receive _ _, [] => { y with pc := .idle }
    | _, _ => y

def FrameQueue.arrived (y : FrameQueue) : List Frame := y.taken.map Prod.fst ++ y.waiting

/-- The frames handed to lwIP, without empty ones. -/
def handed (tfcd : Bool) (taken : List (Frame × Fate)) : List Frame :=
  (taken.filter fun x => x.2 = .handed ∧ 0 < x.1.length tfcd).map Prod.fst

/-! ### The descriptors -/

/-- The buffers and the links of a table are those of `enet_descriptors_chain_init`. -/
structure Linked (tab : Nat → Desc) : Prop where
  addr : ∀ i < enetBufNum, (tab i).buffer1Addr = i * enetMaxFrameSize
  next : ∀ i < enetBufNum, (tab i).buffer2NextDescAddr = Ring.next enetBufNum i

theorem linked_chainDesc (status control : BitVec 32) : Linked (chainDesc status control) :=
  ⟨fun _ _ => rfl, fun _ _ => rfl⟩

/-- A change of a descriptor that leaves its buffer and its link alone. -/
theorem Linked.update {tab : Nat → Desc} (h : Linked tab) {k : Nat} {d : Desc}
    (haddr : d.buffer1Addr = (tab k).buffer1Addr) (hnext : d.buffer2NextDescAddr = (tab k).buffer2NextDescAddr) :
    Linked (Function.update tab k d) := by
  constructor
  · intro i hi
    rcases eq_or_ne i k with rfl | hne
    · rw [Function.update_self, haddr, h.addr i hi]
    · rw [Function.update_of_ne hne, h.addr i hi]
  · intro i hi
    rcases eq_or_ne i k with rfl | hne
    · rw [Function.update_self, hnext, h.next i hi]
    · rw [Function.update_of_ne hne, h.next i hi]

/-- The receive descriptors are linked, and know the size of their buffers. -/
structure RxChained (tab : Nat → Desc) : Prop where
  linked : Linked tab
  control : ∀ i < enetBufNum, (tab i).controlBufferSize = bit32 rdes1Rchm ||| 1524#32

theorem RxChained.update {tab : Nat → Desc} (h : RxChained tab) (k : Nat) (status : BitVec 32) :
    RxChained (Function.update tab k { tab k with status := status }) := by
  refine ⟨h.linked.update rfl rfl, fun i hi => ?_⟩
  rcases eq_or_ne i k with rfl | hne
  · rw [Function.update_self]
    exact h.control i hi
  · rw [Function.update_of_ne hne, h.control i hi]

/-- Descriptor `i` is the main loop's and holds `f`. -/
structure RxFull (tab : Nat → Desc) (buff : Memory) (i : Nat) (f : Frame) : Prop where
  status : (tab i).status = f.status
  owned : f.status.getLsbD rdes0Dav = false
  fits : f.bytes.length ≤ enetMaxFrameSize
  bytes : ∀ k, (h : k < f.bytes.length) → buff (i * enetMaxFrameSize + k) = f.bytes[k]

/-- Descriptor `i` is the DMA's. -/
def RxFree (tab : Nat → Desc) (i : Nat) : Prop := (tab i).status = bit32 rdes0Dav

theorem RxFull.update {tab : Nat → Desc} {buff : Memory} {i : Nat} {f : Frame} (h : RxFull tab buff i f) {k : Nat}
    (hne : i ≠ k) (d : Desc) : RxFull (Function.update tab k d) buff i f :=
  ⟨by rw [Function.update_of_ne hne, h.status], h.owned, h.fits, h.bytes⟩

theorem RxFree.update {tab : Nat → Desc} {i k : Nat} (h : RxFree tab i) (hne : i ≠ k) (d : Desc) :
    RxFree (Function.update tab k d) i := by
  rw [RxFree, Function.update_of_ne hne]
  exact h

theorem RxFree.given (tab : Nat → Desc) (k : Nat) :
    RxFree (Function.update tab k { tab k with status := bit32 rdes0Dav }) k := by
  rw [RxFree, Function.update_self]

theorem RxFull.given {tab : Nat → Desc} {buff : Memory} {k : Nat} {f : Frame} (howned : f.status.getLsbD rdes0Dav = false)
    (hfits : f.bytes.length ≤ enetMaxFrameSize)
    (hbytes : ∀ i, (h : i < f.bytes.length) → buff (k * enetMaxFrameSize + i) = f.bytes[i]) :
    RxFull (Function.update tab k { tab k with status := f.status }) buff k f :=
  ⟨by rw [Function.update_self], howned, hfits, hbytes⟩

/-- The buffers do not overlap. -/
theorem buffer_ne {i j k l : Nat} (hne : i ≠ j) (hk : k < enetMaxFrameSize) (hl : l < enetMaxFrameSize) :
    i * enetMaxFrameSize + k ≠ j * enetMaxFrameSize + l := by
  intro heq
  have hi : (i * enetMaxFrameSize + k) / enetMaxFrameSize = i := by
    rw [Nat.mul_comm, Nat.mul_add_div (Nat.zero_lt_of_lt hk), Nat.div_eq_of_lt hk, Nat.add_zero]
  have hj : (j * enetMaxFrameSize + l) / enetMaxFrameSize = j := by
    rw [Nat.mul_comm, Nat.mul_add_div (Nat.zero_lt_of_lt hl), Nat.div_eq_of_lt hl, Nat.add_zero]
  exact hne (hi ▸ hj ▸ congrArg (· / enetMaxFrameSize) heq)

/-- What is stored to another buffer leaves the frame alone. -/
theorem RxFull.store {tab : Nat → Desc} {buff : Memory} {i j o : Nat} {f : Frame} (h : RxFull tab buff i f)
    (hne : i ≠ j) (ho : o < enetMaxFrameSize) (b : Byte) :
    RxFull tab (write buff (j * enetMaxFrameSize + o) [b]) i f := by
  refine ⟨h.status, h.owned, h.fits, fun k hk => ?_⟩
  have hout := buffer_ne hne (Nat.lt_of_lt_of_le hk h.fits) ho
  rw [write_outside, h.bytes k hk]
  rw [List.length_singleton]
  omega

def chainLen (p : List Segment) : Nat := (p.map Segment.len).sum

def chainData (p : List Segment) : List Byte := p.flatMap Segment.bytes

theorem length_chainData (p : List Segment) : (chainData p).length = chainLen p := by
  simp [chainData, chainLen, Segment.bytes, List.length_flatMap]

theorem chainLen_concat (p : List Segment) (q : Segment) : chainLen (p ++ [q]) = chainLen p + q.len := by
  simp [chainLen]

theorem chainData_concat (p : List Segment) (q : Segment) : chainData (p ++ [q]) = chainData p ++ q.bytes := by
  simp [chainData]

/-- The chain has length `n` and carries the bytes of `f`, as far as the DMA has stored them. -/
structure Carries (n : Nat) (f : Frame) (p : List Segment) : Prop where
  len : chainLen p = n
  data : ∀ k < n, k < f.bytes.length → (chainData p)[k]? = f.bytes[k]?

/-- The length that is read of the front of the queue. -/
def frontLength (tfcd : Bool) : Option Frame → Nat
  | none => 0
  | some f => f.length tfcd

/-- Where the main loop is in both of them, with descriptor `cur` and the frames `waiting`. What it has found at the
    front stays there. -/
inductive Aligned (tfcd : Bool) (cur : Nat) (waiting : List Frame) : RxPc → QueuePc → Prop where
  | idle : Aligned tfcd cur waiting .idle .idle
  | input : Aligned tfcd cur waiting .input .input
  | alloc {c : Option Frame} (hc : ∀ f ∈ c, waiting.head? = some f) :
      Aligned tfcd cur waiting (.alloc (frontLength tfcd c) (cur * enetMaxFrameSize)) (.alloc c)
  | copy {c : Option Frame} {done : List Segment} {lens : List Nat} (hc : ∀ f ∈ c, waiting.head? = some f)
      (hlens : chainLen done + lens.sum = frontLength tfcd c) (hne : done ≠ [] ∨ lens ≠ [])
      (hdata : ∀ f ∈ c, Carries (chainLen done) f done) :
      Aligned tfcd cur waiting (.copy done (cur * enetMaxFrameSize + chainLen done) lens) (.receive c true)
  | receive {c : Option Frame} {p : List Segment} (hc : ∀ f ∈ c, waiting.head? = some f) (hne : p ≠ [])
      (hlen : chainLen p = frontLength tfcd c) (hdata : ∀ f ∈ c, Carries (f.length tfcd) f p) :
      Aligned tfcd cur waiting (.receive p) (.receive c true)
  | noMemory {c : Option Frame} (hc : ∀ f ∈ c, waiting.head? = some f) :
      Aligned tfcd cur waiting (.receive []) (.receive c false)

theorem Aligned.arrive {tfcd : Bool} {cur : Nat} {waiting : List Frame} {pc : RxPc} {qpc : QueuePc}
    (h : Aligned tfcd cur waiting pc qpc) (f : Frame) : Aligned tfcd cur (waiting ++ [f]) pc qpc := by
  have hhead : ∀ {c : Option Frame}, (∀ g ∈ c, waiting.head? = some g) → ∀ g ∈ c, (waiting ++ [f]).head? = some g :=
    fun hc g hg => by rw [List.head?_append, hc g hg, Option.some_or]
  cases h with
  | idle => exact .idle
  | input => exact .input
  | alloc hc => exact .alloc (hhead hc)
  | copy hc hlens hne hdata => exact .copy (hhead hc) hlens hne hdata
  | receive hc hne hlen hdata => exact .receive (hhead hc) hne hlen hdata
  | noMemory hc => exact .noMemory (hhead hc)

structure Refines (tfcd : Bool) (x : Rx) (y : FrameQueue) : Prop where
  chained : RxChained x.ring.rxdescTab
  holds : Ring.Holds enetBufNum (RxFull x.ring.rxdescTab x.ring.rxBuff) (RxFree x.ring.rxdescTab)
    x.ring.dmaCurrentRxdesc x.crdaddr y.waiting
  stored : x.stored.length ≤ enetMaxFrameSize
  storing : ∀ k, (h : k < x.stored.length) → x.ring.rxBuff (x.crdaddr * enetMaxFrameSize + k) = x.stored[k]
  aligned : Aligned tfcd x.ring.dmaCurrentRxdesc y.waiting x.pc y.pc
  inputs : List.Forall₂ (fun f p => Carries (f.length tfcd) f p) (handed tfcd y.taken)
    (x.inputs.filter fun p => 0 < chainLen p)

theorem refines_init (tfcd : Bool) : Refines tfcd .init .init where
  chained := ⟨linked_chainDesc _ _, fun _ _ => rfl⟩
  holds := .start (by decide) fun _ _ => rfl
  stored := Nat.zero_le _
  storing := nofun
  aligned := .idle
  inputs := .nil

/-! ### What the main loop finds -/

section
variable {tfcd : Bool} {least : Nat} {x x' : Rx} {y : FrameQueue}

theorem Refines.current_lt (h : Refines tfcd x y) : x.ring.dmaCurrentRxdesc < enetBufNum := h.holds.lt

/-- The current descriptor is the DMA's exactly if nothing is waiting. -/
theorem Refines.dav_current (h : Refines tfcd x y) :
    x.ring.current.status.getLsbD rdes0Dav = true ↔ y.waiting = [] := by
  have hholds := h.holds
  cases hw : y.waiting with
  | nil =>
    rw [hw] at hholds
    rw [RxRing.current, hholds.free_tail]
    decide
  | cons f fs =>
    rw [hw] at hholds
    rw [RxRing.current, hholds.front.status, hholds.front.owned]
    simp

theorem Refines.status_current (h : Refines tfcd x y) {f : Frame} {fs : List Frame} (hw : y.waiting = f :: fs) :
    x.ring.current.status = f.status := by
  have hholds := h.holds
  rw [hw] at hholds
  exact hholds.front.status

/-- The descriptor that the DMA fills is its own exactly if there is room. -/
theorem Refines.dav_crdaddr (h : Refines tfcd x y) :
    (x.ring.rxdescTab x.crdaddr).status.getLsbD rdes0Dav = true ↔ y.waiting.length < enetBufNum := by
  rcases Nat.lt_or_eq_of_le h.holds.le with hlt | heq
  · rw [h.holds.free_head hlt]
    exact iff_of_true (by decide) hlt
  · obtain ⟨f, -, hf⟩ := h.holds.full_head heq
    rw [hf.status, hf.owned]
    exact iff_of_false nofun (Nat.not_lt.mpr heq.ge)

theorem Refines.release_eq (h : Refines tfcd x y) :
    x.ring.release = ⟨Function.update x.ring.rxdescTab x.ring.dmaCurrentRxdesc
      { x.ring.current with status := bit32 rdes0Dav }, x.ring.rxBuff, Ring.next enetBufNum x.ring.dmaCurrentRxdesc⟩ := by
  have hrchm : x.ring.current.controlBufferSize.getLsbD rdes1Rchm = true := by
    rw [RxRing.current, h.chained.control _ h.current_lt]
    decide
  have hnext : x.ring.current.buffer2NextDescAddr = Ring.next enetBufNum x.ring.dmaCurrentRxdesc :=
    h.chained.linked.next _ h.current_lt
  rw [RxRing.release]
  simp only [hrchm, ↓reduceIte, hnext]

/-- The ring without the frame at its front. -/
theorem Refines.holds_release (h : Refines tfcd x y) {f : Frame} {fs : List Frame} (hw : y.waiting = f :: fs) :
    RxChained x.ring.release.rxdescTab ∧
      Ring.Holds enetBufNum (RxFull x.ring.release.rxdescTab x.ring.release.rxBuff) (RxFree x.ring.release.rxdescTab)
        x.ring.release.dmaCurrentRxdesc x.crdaddr fs := by
  have hholds := h.holds
  rw [hw] at hholds
  rw [h.release_eq]
  refine ⟨h.chained.update _ _, hholds.pop (fun i _ hne g hg => hg.update hne _) (fun i _ hne hfree => hfree.update hne _)
    (.given _ _)⟩

theorem size_eq {f : Frame} (hbad : f.bad = false) {r : RxRing} (hdav : r.current.status.getLsbD rdes0Dav = false)
    (hstatus : r.current.status = f.status) :
    (enetRxframeSizeGet tfcd r).1.toNat = f.size tfcd ∧ (enetRxframeSizeGet tfcd r).2 = r := by
  rw [Frame.bad, Bool.or_eq_false_iff] at hbad
  rw [enetRxframeSizeGet, hdav]
  simp only [hstatus, hbad.1, hbad.2, Bool.false_eq_true, ↓reduceIte, and_true]
  rfl

theorem drop_eq {f : Frame} (hbad : f.bad = true) {r : RxRing} (hdav : r.current.status.getLsbD rdes0Dav = false)
    (hstatus : r.current.status = f.status) : enetRxframeSizeGet tfcd r = (1, r.release) := by
  rw [Frame.bad, Bool.or_eq_true] at hbad
  rw [enetRxframeSizeGet, hdav]
  simp only [hstatus, Bool.false_eq_true, ↓reduceIte]
  rcases hbad with hbad | hbad
  · rw [if_pos hbad]
    rfl
  · rw [if_pos hbad, ite_self]
    rfl

end

/-! ### Every step of the ring is a step of the queue -/

/-- What an event is for the queue: the DMA appends a frame when it is done with it, and copying is nothing to it. -/
def queueEvents (x : Rx) : RxEvent → List QueueEvent
  | .sizeGet => [.sizeGet]
  | .length => [.length]
  | .alloc ok => [.alloc ok]
  | .copy => []
  | .receive => [.receive]
  | .store _ => []
  | .close status => [.arrive ⟨status &&& ~~~bit32 rdes0Dav, x.stored⟩]

section
variable {tfcd : Bool} {least : Nat} {x x' : Rx} {y : FrameQueue}

/-- What each step does. -/
theorem rxStep_sizeGet (h : rxStep tfcd least x .sizeGet = some x') :
    x.pc = .idle ∧ x' = { x with
      ring := (enetRxframeSizeGet tfcd x.ring).2
      pc := if least < (enetRxframeSizeGet tfcd x.ring).1.toNat then .input else .idle } := by
  rw [rxStep] at h
  split at h
  · next hpc => exact ⟨hpc, (Option.some.inj h).symm⟩
  · cases h

theorem rxStep_length (h : rxStep tfcd least x .length = some x') :
    x.pc = .input ∧ x' = { x with
      pc := .alloc ((rxdescFrameLength tfcd x.ring.current.status).toNat % 2 ^ 16) x.ring.current.buffer1Addr } := by
  rw [rxStep] at h
  split at h
  · next hpc => exact ⟨hpc, (Option.some.inj h).symm⟩
  · cases h

theorem rxStep_alloc {ok : Bool} (h : rxStep tfcd least x (.alloc ok) = some x') :
    ∃ len buffer, x.pc = .alloc len buffer ∧
      x' = { x with pc := if ok then .copy [] buffer (poolLens len) else .receive [] } := by
  rw [rxStep] at h
  split at h
  · next len buffer hpc => exact ⟨len, buffer, hpc, (Option.some.inj h).symm⟩
  · cases h

theorem rxStep_copy (h : rxStep tfcd least x .copy = some x') :
    (∃ done src len lens, x.pc = .copy done src (len :: lens) ∧
      x' = { x with pc := .copy (done ++ [⟨ofBytes (read x.ring.rxBuff src len), len⟩]) (src + len) lens }) ∨
    ∃ done src, x.pc = .copy done src [] ∧ x' = { x with pc := .receive done } := by
  rw [rxStep] at h
  split at h
  · next done src len lens hpc => exact .inl ⟨done, src, len, lens, hpc, (Option.some.inj h).symm⟩
  · next done src hpc => exact .inr ⟨done, src, hpc, (Option.some.inj h).symm⟩
  · cases h

theorem rxStep_receive (h : rxStep tfcd least x .receive = some x') :
    ∃ p, x.pc = .receive p ∧ x' = { x with
      ring := enetFrameReceive x.ring
      pc := .idle
      inputs := if p.isEmpty then x.inputs else x.inputs ++ [p] } := by
  rw [rxStep] at h
  split at h
  · next p hpc => exact ⟨p, hpc, (Option.some.inj h).symm⟩
  · cases h

theorem rxStep_store {b : Byte} (h : rxStep tfcd least x (.store b) = some x') :
    (x.ring.rxdescTab x.crdaddr).status.getLsbD rdes0Dav = true ∧
      x.stored.length < ((x.ring.rxdescTab x.crdaddr).controlBufferSize &&& 0x1FFF#32).toNat ∧
      x' = { x with
        ring := { x.ring with
          rxBuff := write x.ring.rxBuff ((x.ring.rxdescTab x.crdaddr).buffer1Addr + x.stored.length) [b] }
        stored := x.stored ++ [b] } := by
  rw [rxStep] at h
  simp only [Bool.and_eq_true, decide_eq_true_eq] at h
  split at h
  · next hif => exact ⟨hif.1, hif.2, (Option.some.inj h).symm⟩
  · cases h

theorem rxStep_close {status : BitVec 32} (h : rxStep tfcd least x (.close status) = some x') :
    (x.ring.rxdescTab x.crdaddr).status.getLsbD rdes0Dav = true ∧
      x' = { x with
        ring := { x.ring with
          rxdescTab := Function.update x.ring.rxdescTab x.crdaddr
            { x.ring.rxdescTab x.crdaddr with status := status &&& ~~~bit32 rdes0Dav } }
        crdaddr := (x.ring.rxdescTab x.crdaddr).buffer2NextDescAddr
        stored := [] } := by
  rw [rxStep] at h
  split at h
  · next hif => exact ⟨hif, (Option.some.inj h).symm⟩
  · cases h

/-- The frames handed to lwIP when one more is taken. -/
theorem handed_concat (tfcd : Bool) (taken : List (Frame × Fate)) (f : Frame) (fate : Fate) :
    handed tfcd (taken ++ [(f, fate)]) =
      handed tfcd taken ++ if fate = .handed ∧ 0 < f.length tfcd then [f] else [] := by
  simp only [handed, List.filter_append, List.map_append, List.filter_cons, List.filter_nil,
    decide_eq_true_eq]
  split_ifs <;> rfl

theorem Aligned.idle_iff {cur : Nat} {waiting : List Frame} {qpc : QueuePc}
    (h : Aligned tfcd cur waiting .idle qpc) : qpc = .idle := by
  cases h
  rfl

theorem refines_sizeGet (h : Refines tfcd x y) (hstep : rxStep tfcd least x .sizeGet = some x') :
    Refines tfcd x' (queueStep tfcd least y .sizeGet) := by
  obtain ⟨hpc, rfl⟩ := rxStep_sizeGet hstep
  have haligned := h.aligned
  rw [hpc] at haligned
  have hidle := haligned.idle_iff
  have hif : ∀ {cur : Nat} {waiting : List Frame} {p : Prop} [Decidable p],
      Aligned tfcd cur waiting (if p then .input else .idle) (if p then .input else .idle) := by
    intro cur waiting p _
    split_ifs
    · exact .input
    · exact .idle
  cases hw : y.waiting with
  | nil =>
    have hsize : enetRxframeSizeGet tfcd x.ring = (0, x.ring) := by
      rw [enetRxframeSizeGet, h.dav_current.mpr hw]
      rfl
    have hq : queueStep tfcd least y .sizeGet = y := by
      rw [queueStep, hidle, hw]
    rw [hsize, hq]
    have hreturn : (if least < (0 : BitVec 32).toNat then RxPc.input else .idle) = .idle := if_neg (Nat.not_lt_zero least)
    exact { h with aligned := by rw [hidle]; exact hreturn ▸ .idle }
  | cons f fs =>
    have hdav : x.ring.current.status.getLsbD rdes0Dav = false := by
      rw [Bool.eq_false_iff, ne_eq, h.dav_current, hw]
      exact List.cons_ne_nil f fs
    cases hbad : f.bad with
    | false =>
      obtain ⟨hsize, hring⟩ := @size_eq tfcd f hbad x.ring hdav (h.status_current hw)
      have hq : queueStep tfcd least y .sizeGet = { y with pc := if least < f.size tfcd then .input else .idle } := by
        rw [queueStep, hidle, hw]
        simp only [hbad, Bool.false_eq_true, ↓reduceIte]
      rw [hsize, hring, hq]
      exact { h with aligned := hif }
    | true =>
      have hq : queueStep tfcd least y .sizeGet =
          ⟨fs, if least < 1 then .input else .idle, y.taken ++ [(f, .dropped)]⟩ := by
        rw [queueStep, hidle, hw]
        simp only [hbad, ↓reduceIte]
      obtain ⟨hchained, hholds⟩ := h.holds_release hw
      rw [drop_eq hbad hdav (h.status_current hw), hq]
      refine ⟨hchained, hholds, h.stored, ?_, hif, ?_⟩
      · rw [h.release_eq]
        exact h.storing
      · rw [handed_concat, if_neg (by simp), List.append_nil]
        exact h.inputs

theorem refines_length (h : Refines tfcd x y) (hstep : rxStep tfcd least x .length = some x') :
    Refines tfcd x' (queueStep tfcd least y .length) := by
  obtain ⟨hpc, rfl⟩ := rxStep_length hstep
  have hinput : y.pc = .input := by
    have haligned := h.aligned
    rw [hpc] at haligned
    generalize y.pc = qpc at haligned
    cases haligned
    rfl
  have hlen : (rxdescFrameLength tfcd x.ring.current.status).toNat % 2 ^ 16 = frontLength tfcd y.waiting.head? := by
    cases hw : y.waiting with
    | nil =>
      have hholds := h.holds
      rw [hw] at hholds
      rw [RxRing.current, hholds.free_tail]
      cases tfcd <;> rfl
    | cons f fs =>
      rw [h.status_current hw]
      rfl
  have haddr : x.ring.current.buffer1Addr = x.ring.dmaCurrentRxdesc * enetMaxFrameSize :=
    h.chained.linked.addr _ h.current_lt
  rw [hlen, haddr, queueStep, hinput]
  exact { h with aligned := .alloc fun _ hf => hf }

theorem sum_poolRest (remLen : Nat) : (poolRest remLen).sum = remLen := by
  fun_induction poolRest remLen with
  | case1 => rfl
  | case2 remLen hne ih =>
    rw [List.sum_cons, ih]
    omega

theorem sum_poolLens (length : Nat) : (poolLens length).sum = length := by
  rw [poolLens, List.sum_cons, sum_poolRest]
  omega

theorem refines_alloc (h : Refines tfcd x y) {ok : Bool} (hstep : rxStep tfcd least x (.alloc ok) = some x') :
    Refines tfcd x' (queueStep tfcd least y (.alloc ok)) := by
  obtain ⟨len, buffer, hpc, rfl⟩ := rxStep_alloc hstep
  have haligned := h.aligned
  rw [hpc] at haligned
  generalize hq : y.pc = qpc at haligned
  cases haligned with
  | @alloc c hc =>
    rw [queueStep, hq]
    cases ok with
    | false => exact { h with aligned := .noMemory hc }
    | true =>
      have hnil : chainLen [] = 0 := rfl
      have hcopy := @Aligned.copy tfcd x.ring.dmaCurrentRxdesc y.waiting c [] (poolLens (frontLength tfcd c)) hc
        (by rw [sum_poolLens, hnil, Nat.zero_add]) (.inr (List.cons_ne_nil _ _))
        fun _ _ => ⟨rfl, fun k hk => absurd hk (Nat.not_lt_zero k)⟩
      rw [hnil, Nat.add_zero] at hcopy
      exact { h with aligned := hcopy }

/-- What is copied next of the front of the queue. -/
theorem Refines.read_front (h : Refines tfcd x y) {f : Frame} (hf : y.waiting.head? = some f) {k : Nat}
    (hk : k < f.bytes.length) :
    x.ring.rxBuff (x.ring.dmaCurrentRxdesc * enetMaxFrameSize + k) = f.bytes[k] := by
  obtain ⟨fs, hw⟩ := List.head?_eq_some_iff.mp hf
  have hholds := h.holds
  rw [hw] at hholds
  exact hholds.front.bytes k hk

theorem bytes_ofBytes_read (buff : Memory) (src len : Nat) :
    Segment.bytes ⟨ofBytes (read buff src len), len⟩ = read buff src len := by
  have hread := read_ofBytes (read buff src len)
  rwa [length_read] at hread

theorem carries_concat {f : Frame} {done : List Segment} (h : Carries (chainLen done) f done) {buff : Memory}
    {src : Nat} (hread : ∀ k, (hk : k < f.bytes.length) → buff (src + k) = f.bytes[k]) (len : Nat) :
    Carries (chainLen (done ++ [⟨ofBytes (read buff (src + chainLen done) len), len⟩])) f
      (done ++ [⟨ofBytes (read buff (src + chainLen done) len), len⟩]) := by
  refine ⟨rfl, fun k hk hkf => ?_⟩
  rw [chainLen_concat] at hk
  rw [chainData_concat]
  rcases Nat.lt_or_ge k (chainLen done) with hlt | hge
  · rw [List.getElem?_append_left (by rwa [length_chainData])]
    exact h.data k hlt hkf
  · obtain ⟨j, rfl⟩ := Nat.exists_eq_add_of_le hge
    have hj : j < len := by
      simpa using hk
    rw [List.getElem?_append_right (by rw [length_chainData]; exact hge), length_chainData, Nat.add_sub_cancel_left,
      bytes_ofBytes_read, getElem?_read hj, List.getElem?_eq_getElem hkf, ← hread _ hkf, Nat.add_assoc]

theorem refines_copy (h : Refines tfcd x y) (hstep : rxStep tfcd least x .copy = some x') : Refines tfcd x' y := by
  have haligned := h.aligned
  rcases rxStep_copy hstep with ⟨done, src, len, lens, hpc, rfl⟩ | ⟨done, src, hpc, rfl⟩
  · rw [hpc] at haligned
    generalize hq : y.pc = qpc at haligned
    cases haligned with
    | @copy c _ _ hc hlens hne hdata =>
      have hcopy := @Aligned.copy tfcd x.ring.dmaCurrentRxdesc y.waiting c
        (done ++ [⟨ofBytes (read x.ring.rxBuff (x.ring.dmaCurrentRxdesc * enetMaxFrameSize + chainLen done) len), len⟩])
        lens hc (by rw [chainLen_concat, ← hlens, List.sum_cons, Nat.add_assoc]) (.inl (by simp))
        fun f hf => carries_concat (hdata f hf) (fun k hk => h.read_front (hc f hf) hk) len
      rw [chainLen_concat, ← Nat.add_assoc] at hcopy
      exact { h with aligned := by rw [hq]; exact hcopy }
  · rw [hpc] at haligned
    generalize hq : y.pc = qpc at haligned
    cases haligned with
    | @copy c _ _ hc hlens hne hdata =>
      have hlen : chainLen done = frontLength tfcd c := hlens
      have hdone : done ≠ [] := hne.resolve_right (fun hnil => hnil rfl)
      have hcarry : ∀ f ∈ c, Carries (f.length tfcd) f done := fun f hf => by
        have hdone := hdata f hf
        rwa [hlen, Option.mem_def.mp hf] at hdone
      exact { h with aligned := by rw [hq]; exact .receive hc hdone hlen hcarry }

/-- The chains that are not empty, when `netif->input` has been called once more, unless there was no memory. -/
theorem filter_inputs (inputs : List (List Segment)) (p : List Segment) :
    ((if p.isEmpty then inputs else inputs ++ [p]).filter fun p => 0 < chainLen p) =
      (inputs.filter fun p => 0 < chainLen p) ++ if 0 < chainLen p then [p] else [] := by
  cases p with
  | nil => exact (List.append_nil _).symm
  | cons q p =>
    rw [List.isEmpty_cons, if_neg Bool.false_ne_true, List.filter_append, List.filter_cons, List.filter_nil]
    simp only [decide_eq_true_eq]

theorem refines_receive (h : Refines tfcd x y) (hstep : rxStep tfcd least x .receive = some x') :
    Refines tfcd x' (queueStep tfcd least y .receive) := by
  obtain ⟨p, hpc, rfl⟩ := rxStep_receive hstep
  have haligned := h.aligned
  rw [hpc] at haligned
  generalize hq : y.pc = qpc at haligned
  obtain ⟨c, ok, rfl, hc, hp, hcarry⟩ : ∃ c ok, qpc = .receive c ok ∧ (∀ f ∈ c, y.waiting.head? = some f) ∧
      (c = none ∨ ok = false → chainLen p = 0) ∧ ∀ f ∈ c, ok = true → Carries (f.length tfcd) f p := by
    cases haligned with
    | @receive c _ hc hne hlen hdata =>
      refine ⟨c, true, rfl, hc, ?_, fun f hf _ => hdata f hf⟩
      rintro (rfl | hok)
      · exact hlen
      · cases hok
    | @noMemory c hc => exact ⟨c, false, rfl, hc, fun _ => rfl, nofun⟩
  cases hw : y.waiting with
  | nil =>
    have hnone : c = none := by
      cases c with
      | none => rfl
      | some f =>
        have hf := hc f rfl
        rw [hw] at hf
        cases hf
    have hring : enetFrameReceive x.ring = x.ring := if_pos (h.dav_current.mpr hw)
    have hqueue : queueStep tfcd least y .receive = { y with pc := .idle } := by
      rw [queueStep, hq, hw]
    rw [hring, hqueue]
    refine { h with aligned := .idle, inputs := ?_ }
    rw [filter_inputs, hp (.inl hnone), if_neg (Nat.lt_irrefl 0), List.append_nil]
    exact h.inputs
  | cons f fs =>
    have hdav : ¬ x.ring.current.status.getLsbD rdes0Dav = true := by
      rw [h.dav_current, hw]
      exact List.cons_ne_nil f fs
    have hring : enetFrameReceive x.ring = x.ring.release := if_neg hdav
    have hqueue : queueStep tfcd least y .receive = ⟨fs, .idle, y.taken ++ [(f, Fate.of c ok)]⟩ := by
      rw [queueStep, hq, hw]
    obtain ⟨hchained, hholds⟩ := h.holds_release hw
    rw [hring, hqueue]
    refine ⟨hchained, hholds, h.stored, ?_, .idle, ?_⟩
    · rw [h.release_eq]
      exact h.storing
    rw [handed_concat, filter_inputs]
    refine List.rel_append h.inputs ?_
    by_cases hgiven : c = none ∨ ok = false
    · have hfate : ¬ (Fate.of c ok = .handed ∧ 0 < f.length tfcd) := by
        rcases hgiven with rfl | rfl
        · exact fun hf => by cases hf.1
        · cases c with
          | none => exact fun hf => by cases hf.1
          | some g => exact fun hf => by cases hf.1
      rw [if_neg hfate, hp hgiven, if_neg (Nat.lt_irrefl 0)]
      exact .nil
    · rw [not_or, Bool.not_eq_false] at hgiven
      obtain ⟨hsome, rfl⟩ := hgiven
      obtain ⟨g, rfl⟩ := Option.ne_none_iff_exists'.mp hsome
      have hg : f = g := by
        have hhead := hc g rfl
        rw [hw] at hhead
        exact Option.some.inj hhead
      subst hg
      have hlen := (hcarry f rfl rfl).len
      have hfate : Fate.of (some f) true = .handed := rfl
      rw [hfate, hlen]
      simp only [true_and]
      split_ifs
      · exact .cons (hcarry f rfl rfl) .nil
      · exact .nil

theorem refines_store (h : Refines tfcd x y) {b : Byte} (hstep : rxStep tfcd least x (.store b) = some x') :
    Refines tfcd x' y := by
  obtain ⟨hdav, hlt, rfl⟩ := rxStep_store hstep
  have hroom : y.waiting.length < enetBufNum := h.dav_crdaddr.mp hdav
  have hfits : x.stored.length < enetMaxFrameSize := by
    rw [h.chained.control _ h.holds.head_lt] at hlt
    exact hlt
  rw [h.chained.linked.addr _ h.holds.head_lt]
  have hlen : (x.stored ++ [b]).length = x.stored.length + 1 := by simp
  refine ⟨h.chained, h.holds.frame (fun i _ f hf => ?_) fun i _ hfree => hfree, ?_, fun k hk => ?_, h.aligned, h.inputs⟩
  · have hne : i ≠ x.crdaddr := by
      rintro rfl
      rw [hf.status, hf.owned] at hdav
      cases hdav
    exact hf.store hne hfits b
  · rw [hlen]
    exact hfits
  · exact write_concat h.storing b k hk

theorem refines_close (h : Refines tfcd x y) {status : BitVec 32} (hstep : rxStep tfcd least x (.close status) = some x') :
    Refines tfcd x' (queueStep tfcd least y (.arrive ⟨status &&& ~~~bit32 rdes0Dav, x.stored⟩)) := by
  obtain ⟨hdav, rfl⟩ := rxStep_close hstep
  have hroom : y.waiting.length < enetBufNum := h.dav_crdaddr.mp hdav
  rw [h.chained.linked.next _ h.holds.head_lt]
  have howned : (status &&& ~~~bit32 rdes0Dav).getLsbD rdes0Dav = false := by
    simp [bit32, rdes0Dav]
  have hfull := @RxFull.given x.ring.rxdescTab x.ring.rxBuff x.crdaddr ⟨status &&& ~~~bit32 rdes0Dav, x.stored⟩ howned
    h.stored h.storing
  exact ⟨h.chained.update _ _, h.holds.push hroom (fun i _ hne f hf => hf.update hne _)
    (fun i _ hne hfree => hfree.update hne _) hfull, Nat.zero_le _, nofun, h.aligned.arrive _, h.inputs⟩

/-- Every step of the ring is a step of the queue, or none. -/
theorem refines_step (h : Refines tfcd x y) {e : RxEvent} (hstep : rxStep tfcd least x e = some x') :
    Refines tfcd x' (Machine.run (queueStep tfcd least) y (queueEvents x e)) := by
  cases e with
  | sizeGet => exact refines_sizeGet h hstep
  | length => exact refines_length h hstep
  | alloc ok => exact refines_alloc h hstep
  | copy => exact refines_copy h hstep
  | receive => exact refines_receive h hstep
  | store b => exact refines_store h hstep
  | close status => exact refines_close h hstep

end

end YlsFirmware
