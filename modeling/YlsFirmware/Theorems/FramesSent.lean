import YlsFirmware.Theorems.FrameQueue

/-! # What becomes of the frames sent

`low_level_output` copies a frame to the buffer of the current transmit descriptor while the DMA reads the buffers of
others. Frames that fit a buffer go out as they were given, in the same order, and the copying keeps off the buffers
that the DMA reads. -/

namespace YlsFirmware
open Packed

/-- The call of `low_level_output` that is running, with what it has still to copy, and the chains of the calls that
    have returned. -/
structure Calls where
  running : Option (List Segment × List Segment)
  returned : List (List Segment)

def Calls.step (z : Calls) : TxEvent → Calls
  | .output p => { z with running := some (p, p) }
  | .copy =>
    match z.running with
    | some (p, _ :: rest) => { z with running := some (p, rest) }
    | some (p, []) => ⟨none, z.returned ++ [p]⟩
    | none => z
  | _ => z

def calls (evs : List TxEvent) : Calls := Machine.run Calls.step ⟨none, []⟩ evs

/-- Descriptor `i` is the DMA's and holds the frame `bs`. -/
structure TxFull (tab : Nat → Desc) (buff : Memory) (i : Nat) (bs : List Byte) : Prop where
  owned : (tab i).status.getLsbD tdes0Dav = true
  length : (tab i).controlBufferSize = BitVec.ofNat 32 bs.length
  fits : bs.length ≤ enetMaxFrameSize
  bytes : ∀ k, (h : k < bs.length) → buff (i * enetMaxFrameSize + k) = bs[k]

/-- Descriptor `i` is the main loop's. -/
def TxFree (tab : Nat → Desc) (i : Nat) : Prop := (tab i).status.getLsbD tdes0Dav = false

/-- The transmit descriptors are linked, and in chained mode. -/
structure TxChained (tab : Nat → Desc) : Prop where
  linked : Linked tab
  chained : ∀ i < enetBufNum, (tab i).status.getLsbD tdes0Tchm = true

theorem TxChained.update {tab : Nat → Desc} (h : TxChained tab) (k : Nat) {status : BitVec 32}
    (hstatus : status.getLsbD tdes0Tchm = (tab k).status.getLsbD tdes0Tchm) (control : BitVec 32) :
    TxChained (Function.update tab k { tab k with status := status, controlBufferSize := control }) := by
  refine ⟨h.linked.update rfl rfl, fun i hi => ?_⟩
  rcases eq_or_ne i k with rfl | hne
  · rw [Function.update_self, hstatus, h.chained i hi]
  · rw [Function.update_of_ne hne, h.chained i hi]

theorem TxFull.update {tab : Nat → Desc} {buff : Memory} {i : Nat} {bs : List Byte} (h : TxFull tab buff i bs) {k : Nat}
    (hne : i ≠ k) (d : Desc) : TxFull (Function.update tab k d) buff i bs :=
  ⟨by rw [Function.update_of_ne hne, h.owned], by rw [Function.update_of_ne hne, h.length], h.fits, h.bytes⟩

theorem TxFree.update {tab : Nat → Desc} {i k : Nat} (h : TxFree tab i) (hne : i ≠ k) (d : Desc) :
    TxFree (Function.update tab k d) i := by
  rw [TxFree, Function.update_of_ne hne]
  exact h

/-- What is stored to another buffer leaves the frame alone. -/
theorem TxFull.store {tab : Nat → Desc} {buff : Memory} {i j o : Nat} {bs : List Byte} (h : TxFull tab buff i bs)
    (hne : i ≠ j) {cs : List Byte} (hfits : o + cs.length ≤ enetMaxFrameSize) :
    TxFull tab (write buff (j * enetMaxFrameSize + o) cs) i bs := by
  refine ⟨h.owned, h.length, h.fits, fun k hk => ?_⟩
  rw [write_outside, h.bytes k hk]
  rintro ⟨hle, hlt⟩
  obtain ⟨l, hl⟩ := Nat.exists_eq_add_of_le hle
  have hlt' : o + l < enetMaxFrameSize := by omega
  exact buffer_ne hne (Nat.lt_of_lt_of_le hk h.fits) hlt' (by omega)

/-- Where `low_level_output` is: of the chain of the call, what comes before `rest` is in the buffer of descriptor
    `cur`. -/
inductive Copied (buff : Memory) (cur : Nat) : TxPc → Option (List Segment × List Segment) → Prop where
  | idle : Copied buff cur .idle none
  | wait {p : List Segment} (hfits : chainLen p ≤ enetMaxFrameSize) : Copied buff cur (.wait p) (some (p, p))
  | copy {done rest : List Segment} (hfits : chainLen (done ++ rest) ≤ enetMaxFrameSize)
      (hbuff : read buff (cur * enetMaxFrameSize) (chainLen done) = chainData done) :
      Copied buff cur (.copy (chainLen done) rest) (some (done ++ rest, rest))

/-- The frames of the calls are on the wire, or wait in the ring. -/
structure TxInv (x : Tx) (z : Calls) (waiting : List (List Byte)) : Prop where
  chained : TxChained x.ring.txdescTab
  holds : Ring.Holds enetBufNum (TxFull x.ring.txdescTab x.ring.txBuff) (TxFree x.ring.txdescTab)
    x.ctdaddr x.ring.dmaCurrentTxdesc waiting
  copied : Copied x.ring.txBuff x.ring.dmaCurrentTxdesc x.pc z.running
  free : ∀ fl rest, x.pc = .copy fl rest → waiting.length < enetBufNum
  fetched : x.fetched = (waiting.headD []).take x.fetched.length
  sent : z.returned.map chainData = x.wire ++ waiting

section
variable {x x' : Tx} {z : Calls} {waiting : List (List Byte)}

/-! ### What each step does -/

theorem txStep_output {p : List Segment} (h : txStep x (.output p) = some x') :
    x.pc = .idle ∧ x' = { x with pc := .wait p } := by
  rw [txStep] at h
  split at h
  · next hpc => exact ⟨hpc, (Option.some.inj h).symm⟩
  · cases h

theorem txStep_look (h : txStep x .look = some x') :
    ∃ p, x.pc = .wait p ∧
      x' = if x.ring.current.status.getLsbD tdes0Dav then x else { x with pc := .copy 0 p } := by
  rw [txStep] at h
  split at h
  · next p hpc => exact ⟨p, hpc, (Option.some.inj h).symm⟩
  · cases h

theorem txStep_copy (h : txStep x .copy = some x') :
    (∃ fl q rest, x.pc = .copy fl (q :: rest) ∧ x' = { x with
      ring := { x.ring with
        txBuff := write x.ring.txBuff (x.ring.current.buffer1Addr + fl) (read q.payload 0 q.len) }
      pc := .copy (fl + q.len) rest }) ∨
    ∃ fl, x.pc = .copy fl [] ∧ x' = { x with ring := enetFrameTransmit x.ring fl, pc := .idle } := by
  rw [txStep] at h
  split at h
  · next fl q rest hpc => exact .inl ⟨fl, q, rest, hpc, (Option.some.inj h).symm⟩
  · next fl hpc => exact .inr ⟨fl, hpc, (Option.some.inj h).symm⟩
  · cases h

theorem txStep_fetch (h : txStep x .fetch = some x') :
    (x.ring.txdescTab x.ctdaddr).status.getLsbD tdes0Dav = true ∧
      x.fetched.length < ((x.ring.txdescTab x.ctdaddr).controlBufferSize &&& 0x1FFF#32).toNat ∧
      x' = { x with fetched := x.fetched ++
        [x.ring.txBuff ((x.ring.txdescTab x.ctdaddr).buffer1Addr + x.fetched.length)] } := by
  rw [txStep] at h
  simp only [Bool.and_eq_true, decide_eq_true_eq] at h
  split at h
  · next hif => exact ⟨hif.1, hif.2, (Option.some.inj h).symm⟩
  · cases h

theorem txStep_close {flags : BitVec 32} (h : txStep x (.close flags) = some x') :
    (x.ring.txdescTab x.ctdaddr).status.getLsbD tdes0Dav = true ∧
      x.fetched.length = ((x.ring.txdescTab x.ctdaddr).controlBufferSize &&& 0x1FFF#32).toNat ∧
      x' = { x with
        ring := { x.ring with
          txdescTab := Function.update x.ring.txdescTab x.ctdaddr
            { x.ring.txdescTab x.ctdaddr with status := closeStatus (x.ring.txdescTab x.ctdaddr).status flags } }
        ctdaddr := (x.ring.txdescTab x.ctdaddr).buffer2NextDescAddr
        fetched := []
        wire := x.wire ++ [x.fetched] } := by
  rw [txStep] at h
  simp only [Bool.and_eq_true, decide_eq_true_eq] at h
  split at h
  · next hif => exact ⟨hif.1, hif.2, (Option.some.inj h).symm⟩
  · cases h

/-! ### Every step keeps the frames -/

theorem TxInv.free_current (h : TxInv x z waiting) (hlt : waiting.length < enetBufNum) :
    x.ring.current.status.getLsbD tdes0Dav = false := h.holds.free_head hlt

/-- The DMA sends the frame at the front. -/
theorem TxInv.front (h : TxInv x z waiting) (hdav : (x.ring.txdescTab x.ctdaddr).status.getLsbD tdes0Dav = true) :
    ∃ bs rest, waiting = bs :: rest ∧ TxFull x.ring.txdescTab x.ring.txBuff x.ctdaddr bs := by
  cases waiting with
  | nil =>
    have hfree : TxFree x.ring.txdescTab x.ctdaddr := h.holds.free_tail
    rw [TxFree, hdav] at hfree
    cases hfree
  | cons bs rest => exact ⟨bs, rest, rfl, h.holds.front⟩

theorem length_field {n : Nat} (h : n ≤ enetMaxFrameSize) : (BitVec.ofNat 32 n &&& 0x1FFF#32).toNat = n := by
  have hmask : (0x1FFF#32).toNat = 2 ^ 13 - 1 := rfl
  have hlt : n < 2 ^ 13 := Nat.lt_of_le_of_lt h (by decide)
  have hword : n % 2 ^ 32 = n := Nat.mod_eq_of_lt (Nat.lt_trans hlt (by decide))
  rw [BitVec.toNat_and, hmask, Nat.and_two_pow_sub_one_eq_mod, BitVec.toNat_ofNat, hword, Nat.mod_eq_of_lt hlt]

theorem txInv_output (h : TxInv x z waiting) {p : List Segment} (hp : chainLen p ≤ enetMaxFrameSize)
    (hstep : txStep x (.output p) = some x') : TxInv x' (z.step (.output p)) waiting := by
  obtain ⟨-, rfl⟩ := txStep_output hstep
  exact { h with copied := .wait hp, free := nofun }

theorem txInv_look (h : TxInv x z waiting) (hstep : txStep x .look = some x') : TxInv x' (z.step .look) waiting := by
  obtain ⟨p, hpc, rfl⟩ := txStep_look hstep
  split_ifs with hdav
  · exact h
  · have hroom : waiting.length < enetBufNum := by
      rcases Nat.lt_or_eq_of_le h.holds.le with hlt | heq
      · exact hlt
      · obtain ⟨bs, -, hfull⟩ := h.holds.full_head heq
        exact absurd hfull.owned hdav
    have hcopied := h.copied
    rw [hpc] at hcopied
    have hcopy : Copied x.ring.txBuff x.ring.dmaCurrentTxdesc (.copy 0 p) z.running := by
      generalize z.running = running at hcopied
      cases hcopied with
      | wait hfits => exact @Copied.copy _ _ [] p hfits rfl
    exact { h with copied := hcopy, free := fun _ _ _ => hroom }

/-- The frames that wait are not where the main loop copies to. -/
theorem TxInv.ne_current (h : TxInv x z waiting) (hlt : waiting.length < enetBufNum) {i : Nat} {bs : List Byte}
    (hfull : TxFull x.ring.txdescTab x.ring.txBuff i bs) : i ≠ x.ring.dmaCurrentTxdesc := by
  rintro rfl
  have hfree := h.free_current hlt
  rw [TxRing.current, hfull.owned] at hfree
  cases hfree

/-- The status with which a descriptor is handed to the DMA. -/
def transmitStatus (status : BitVec 32) : BitVec 32 :=
  (status ||| bit32 tdes0Lsg ||| bit32 tdes0Fsg) ||| bit32 tdes0Dav

theorem transmitStatus_dav (status : BitVec 32) : (transmitStatus status).getLsbD tdes0Dav = true := by
  simp [transmitStatus, bit32, tdes0Dav]

theorem transmitStatus_tchm (status : BitVec 32) :
    (transmitStatus status).getLsbD tdes0Tchm = status.getLsbD tdes0Tchm := by
  simp [transmitStatus, bit32, tdes0Dav, tdes0Tchm, tdes0Lsg, tdes0Fsg]

theorem TxFull.given {tab : Nat → Desc} {buff : Memory} {k : Nat} {bs : List Byte} (hfits : bs.length ≤ enetMaxFrameSize)
    (hbuff : read buff (k * enetMaxFrameSize) bs.length = bs) :
    TxFull (Function.update tab k { tab k with
      status := transmitStatus (tab k).status, controlBufferSize := BitVec.ofNat 32 bs.length }) buff k bs := by
  refine ⟨?_, ?_, hfits, fun i hi => ?_⟩
  · rw [Function.update_self]
    exact transmitStatus_dav _
  · rw [Function.update_self]
  · have hbyte := (read_eq_iff rfl).mp hbuff i hi
    rwa [List.getD_eq_getElem?_getD, List.getElem?_eq_getElem hi, Option.getD_some] at hbyte

theorem closeStatus_dav (status flags : BitVec 32) : (closeStatus status flags).getLsbD tdes0Dav = false := by
  simp [closeStatus, bit32, tdes0Dav]

theorem closeStatus_tchm (status flags : BitVec 32) :
    (closeStatus status flags).getLsbD tdes0Tchm = status.getLsbD tdes0Tchm := by
  simp [closeStatus, bit32, tdes0Dav, tdes0Tchm]

theorem TxFree.given (tab : Nat → Desc) (k : Nat) (flags : BitVec 32) :
    TxFree (Function.update tab k { tab k with status := closeStatus (tab k).status flags }) k := by
  rw [TxFree, Function.update_self]
  exact closeStatus_dav _ _

theorem TxInv.transmit_eq (h : TxInv x z waiting) (hlt : waiting.length < enetBufNum) {length : Nat}
    (hfits : length ≤ enetMaxFrameSize) :
    enetFrameTransmit x.ring length = ⟨Function.update x.ring.txdescTab x.ring.dmaCurrentTxdesc
      { x.ring.current with
        status := transmitStatus x.ring.current.status
        controlBufferSize := BitVec.ofNat 32 length }, x.ring.txBuff, Ring.next enetBufNum x.ring.dmaCurrentTxdesc⟩ := by
  have htchm : (transmitStatus x.ring.current.status).getLsbD tdes0Tchm = true := by
    rw [transmitStatus_tchm]
    exact h.chained.chained _ h.holds.head_lt
  have hnext : x.ring.current.buffer2NextDescAddr = Ring.next enetBufNum x.ring.dmaCurrentTxdesc :=
    h.chained.linked.next _ h.holds.head_lt
  rw [transmitStatus] at htchm
  rw [enetFrameTransmit, h.free_current hlt]
  simp only [Bool.false_eq_true, ↓reduceIte, Nat.not_lt.mpr hfits, htchm, hnext, transmitStatus]

theorem fetched_concat {fetched : List Byte} (h : fetched = (waiting.headD []).take fetched.length) (bs : List Byte) :
    fetched = ((waiting ++ [bs]).headD []).take fetched.length := by
  cases waiting with
  | nil =>
    rw [List.headD_nil, List.take_nil] at h
    rw [h]
    rfl
  | cons cs rest => exact h

theorem txInv_copy (h : TxInv x z waiting) (hstep : txStep x .copy = some x') :
    ∃ waiting', TxInv x' (z.step .copy) waiting' := by
  have hcopied := h.copied
  rcases txStep_copy hstep with ⟨fl, q, rest, hpc, rfl⟩ | ⟨fl, hpc, rfl⟩
  · have hroom := h.free fl (q :: rest) hpc
    rw [hpc] at hcopied
    generalize hrun : z.running = running at hcopied
    cases hcopied with
    | @copy done _ hfits hbuff =>
      have haddr : x.ring.current.buffer1Addr = x.ring.dmaCurrentTxdesc * enetMaxFrameSize :=
        h.chained.linked.addr _ h.holds.head_lt
      have hlen : chainLen done + (read q.payload 0 q.len).length ≤ enetMaxFrameSize := by
        rw [length_read]
        have hsum : chainLen (done ++ q :: rest) = chainLen done + (q.len + chainLen rest) := by
          simp [chainLen]
        omega
      have hz : z.step .copy = { z with running := some ((done ++ [q]) ++ rest, rest) } := by
        rw [Calls.step, hrun, List.append_assoc]
        rfl
      rw [haddr, hz, ← chainLen_concat]
      refine ⟨waiting, h.chained, h.holds.frame (fun i _ bs hfull => hfull.store (h.ne_current hroom hfull) hlen)
        fun i _ hfree => hfree, .copy ?_ ?_, fun _ _ _ => hroom, h.fetched, h.sent⟩
      · rwa [List.append_assoc]
      · have hread := read_write_append x.ring.txBuff (x.ring.dmaCurrentTxdesc * enetMaxFrameSize) (chainLen done)
          (read q.payload 0 q.len)
        rw [length_read, hbuff] at hread
        rw [chainLen_concat, chainData_concat]
        exact hread
  · have hroom := h.free fl [] hpc
    rw [hpc] at hcopied
    generalize hrun : z.running = running at hcopied
    cases hcopied with
    | @copy done _ hfits hbuff =>
      rw [List.append_nil] at hfits
      have hz : z.step .copy = ⟨none, z.returned ++ [done]⟩ := by
        rw [Calls.step, hrun, List.append_nil]
      rw [hz, h.transmit_eq hroom hfits]
      have hlen : (chainData done).length = chainLen done := length_chainData done
      have hfull := @TxFull.given x.ring.txdescTab x.ring.txBuff x.ring.dmaCurrentTxdesc (chainData done)
        (by rw [hlen]; exact hfits) (by rw [hlen]; exact hbuff)
      rw [hlen] at hfull
      refine ⟨waiting ++ [chainData done], h.chained.update _ (transmitStatus_tchm _) _, h.holds.push hroom
        (fun i _ hne bs hbs => hbs.update hne _) (fun i _ hne hfree => hfree.update hne _) hfull, .idle,
        (fun _ _ h => by cases h), ?_, ?_⟩
      · exact fetched_concat h.fetched _
      · rw [List.map_append, h.sent, List.append_assoc]
        rfl

theorem txInv_fetch (h : TxInv x z waiting) (hstep : txStep x .fetch = some x') : TxInv x' z waiting := by
  obtain ⟨hdav, hlt, rfl⟩ := txStep_fetch hstep
  obtain ⟨bs, rest, rfl, hfull⟩ := h.front hdav
  rw [hfull.length, length_field hfull.fits] at hlt
  have hbyte : x.ring.txBuff ((x.ring.txdescTab x.ctdaddr).buffer1Addr + x.fetched.length) = bs[x.fetched.length] := by
    rw [h.chained.linked.addr _ h.holds.lt]
    exact hfull.bytes _ hlt
  rw [hbyte]
  refine { h with fetched := ?_ }
  have hfetched := h.fetched
  rw [List.headD_cons] at hfetched ⊢
  rw [List.length_append, List.length_singleton, List.take_succ_eq_append_getElem hlt, ← hfetched]

theorem txInv_close (h : TxInv x z waiting) {flags : BitVec 32} (hstep : txStep x (.close flags) = some x') :
    ∃ waiting', TxInv x' z waiting' := by
  obtain ⟨hdav, hlen, rfl⟩ := txStep_close hstep
  obtain ⟨bs, rest, rfl, hfull⟩ := h.front hdav
  rw [hfull.length, length_field hfull.fits] at hlen
  have hbs : x.fetched = bs := by
    have hfetched := h.fetched
    rw [hlen] at hfetched
    rw [hfetched]
    exact List.take_length
  rw [h.chained.linked.next _ h.holds.lt, hbs]
  refine ⟨rest, h.chained.update _ (closeStatus_tchm _ _) _, h.holds.pop (fun i _ hne cs hcs => hcs.update hne _)
    (fun i _ hne hfree => hfree.update hne _) (.given _ _ _), h.copied, fun fl rest' hpc => ?_, rfl, ?_⟩
  · exact Nat.lt_of_succ_lt (h.free fl rest' hpc)
  · rw [h.sent, List.append_assoc]
    rfl

theorem txInv_step (h : TxInv x z waiting) {e : TxEvent} (he : ∀ p, e = .output p → chainLen p ≤ enetMaxFrameSize)
    (hstep : txStep x e = some x') : ∃ waiting', TxInv x' (z.step e) waiting' := by
  cases e with
  | output p => exact ⟨waiting, txInv_output h (he p rfl) hstep⟩
  | look => exact ⟨waiting, txInv_look h hstep⟩
  | copy => exact txInv_copy h hstep
  | fetch => exact ⟨waiting, txInv_fetch h hstep⟩
  | close flags => exact txInv_close h hstep

theorem tchm_only : (bit32 tdes0Tchm).getLsbD tdes0Tchm = true ∧ (bit32 tdes0Tchm).getLsbD tdes0Dav = false := by
  decide

theorem txInv_init : TxInv .init ⟨none, []⟩ [] where
  chained := ⟨linked_chainDesc _ _, fun _ _ => tchm_only.1⟩
  holds := .start (by decide) fun _ _ => tchm_only.2
  copied := .idle
  free := nofun
  fetched := rfl
  sent := rfl

/-- The bytes of `tx_buff` that the next step of `low_level_output` writes. -/
def Tx.Writes (x : Tx) (a : Nat) : Prop :=
  ∃ fl q rest, x.pc = .copy fl (q :: rest) ∧ x.ring.current.buffer1Addr + fl ≤ a ∧
    a < x.ring.current.buffer1Addr + fl + q.len

/-- The buffers of the descriptors that are the DMA's. -/
def Tx.DmaReads (x : Tx) (a : Nat) : Prop :=
  ∃ i < enetBufNum, (x.ring.txdescTab i).status.getLsbD tdes0Dav = true ∧
    (x.ring.txdescTab i).buffer1Addr ≤ a ∧ a < (x.ring.txdescTab i).buffer1Addr + enetMaxFrameSize

/-- What is written lies in the buffer of the current descriptor, and that one is the main loop's. -/
theorem TxInv.not_dmaReads (h : TxInv x z waiting) {a : Nat} (ha : x.Writes a) : ¬ x.DmaReads a := by
  obtain ⟨fl, q, rest, hpc, hle, hlt⟩ := ha
  rintro ⟨i, hi, hdav, hlei, hlti⟩
  have hfree := h.free_current (h.free fl _ hpc)
  have hne : i ≠ x.ring.dmaCurrentTxdesc := by
    rintro rfl
    rw [TxRing.current, hdav] at hfree
    cases hfree
  have hfits : fl + q.len ≤ enetMaxFrameSize := by
    have hcopied := h.copied
    rw [hpc] at hcopied
    generalize z.running = running at hcopied
    cases hcopied with
    | @copy done _ hfits hbuff =>
      simp only [chainLen, List.map_append, List.map_cons, List.sum_append, List.sum_cons] at hfits ⊢
      omega
  have haddr : x.ring.current.buffer1Addr = x.ring.dmaCurrentTxdesc * enetMaxFrameSize :=
    h.chained.linked.addr _ h.holds.head_lt
  rw [haddr] at hle hlt
  rw [h.chained.linked.addr i hi] at hlei hlti
  obtain ⟨k, rfl⟩ := Nat.exists_eq_add_of_le hlei
  obtain ⟨l, hl⟩ := Nat.exists_eq_add_of_le (Nat.le_trans (Nat.le_add_right _ fl) hle)
  exact buffer_ne hne (by omega) (by omega) hl

/-- In every run, the frames of the calls that have returned go out in the same order, each of them once and with the
    bytes of its chain; the ring still holds at most as many of them as there are descriptors. At no time is
    `low_level_output` about to write what the DMA reads. -/
theorem frames_sent {evs : List TxEvent} (h : Machine.exec txStep .init evs = some x)
    (hfits : ∀ p, .output p ∈ evs → chainLen p ≤ enetMaxFrameSize) :
    (∃ waiting, (calls evs).returned.map chainData = x.wire ++ waiting ∧ waiting.length ≤ enetBufNum) ∧
      ∀ a, x.Writes a → ¬ x.DmaReads a := by
  obtain ⟨waiting, hinv⟩ := @Machine.exec_history _ _ txStep
    (fun es s => (∀ p, .output p ∈ es → chainLen p ≤ enetMaxFrameSize) → ∃ waiting, TxInv s (calls es) waiting) .init
    (fun _ => ⟨[], txInv_init⟩) (fun es s e t hs ht hes => by
      obtain ⟨waiting, hinv⟩ := hs fun p hp => hes p (List.mem_append_left _ hp)
      rw [calls, Machine.run_concat]
      exact txInv_step hinv (fun p hp => hes p (List.mem_append_right _ (List.mem_singleton.mpr hp.symm))) ht) evs x h
    hfits
  exact ⟨⟨waiting, hinv.sent, hinv.holds.le⟩, fun a => hinv.not_dmaReads⟩

/-- A frame in two pbufs is on the wire, the next one is the DMA's, and one more is about to be copied. -/
def threeFrames : List TxEvent :=
  [.output [⟨fun _ => 7, 2⟩, ⟨fun _ => 8, 1⟩], .look, .copy, .copy, .copy, .fetch, .fetch, .output [⟨fun _ => 9, 1⟩],
    .fetch, .look, .close 0, .copy, .copy, .output [⟨fun _ => 5, 1⟩], .look]

theorem frames_sent_threeFrames :
    ∃ x, Machine.exec txStep .init threeFrames = some x ∧ x.wire = [[7, 7, 8]] ∧ x.Writes 3048 ∧ x.DmaReads 1524 ∧
      (∃ waiting, (calls threeFrames).returned.map chainData = x.wire ++ waiting ∧ waiting.length ≤ enetBufNum) ∧
      ∀ a, x.Writes a → ¬ x.DmaReads a := by
  refine ⟨_, rfl, rfl, ⟨0, _, [], rfl, by decide, by decide⟩, ⟨1, by decide, by decide, by decide, by decide⟩,
    frames_sent rfl fun p hp => ?_⟩
  simp only [threeFrames, List.mem_cons, TxEvent.output.injEq, reduceCtorEq, false_or, List.not_mem_nil, or_false] at hp
  rcases hp with rfl | rfl | rfl <;> decide

end

end YlsFirmware
