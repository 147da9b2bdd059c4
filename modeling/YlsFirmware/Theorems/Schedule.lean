import Mathlib.Logic.Function.Iterate
import YlsFirmware.Device
import YlsFirmware.Firmware

/-! # The poll schedule

What a step does to the counters, the rows and the packets, and the ranges that the counters keep from boot
on. Only a poll tick moves the counters. -/

namespace YlsFirmware
open Packed

namespace Counters

def next (c : Counters) : Counters :=
  let c := c.nextSlot
  if c.currentBKD < inTotalBKD then c else if c.currentBKD = inTotalBKD then c.nextBKHOA else c.nextOUTSERVO

def clears (c : Counters) : List Store :=
  if c.currentBKD < inTotalBKD then c.clearBKD
  else if c.currentBKD = inTotalBKD then c.clearBKHOA else c.clearOUTSERVO

/-- The ranges that the counters keep from boot on. The counters of the BKHO-A and of the servos start at 1,
    below the addresses of their devices. -/
structure InRange (c : Counters) : Prop where
  slot : c.currentBKD ≤ 13
  one_le : 1 ≤ c.currentDeviceInBKDx
  le_twelve : c.currentDeviceInBKDx ≤ 12
  bkhoA : c.currentDeviceInBKHOA ≤ 168
  outServo : c.currentDeviceInOUTSERVO ≤ 176

end Counters

/-! ### The poll tick -/

theorem counters_qwertyAllDevice (s : State) : (qwertyAllDevice s).counters = s.counters.next := by
  simp only [qwertyAllDevice, Counters.next, State.counters_storeRows]
  split_ifs <;> rfl

@[simp] theorem currentTickTxEth_qwertyAllDevice (s : State) :
    (qwertyAllDevice s).currentTickTxEth = s.currentTickTxEth := by
  simp only [qwertyAllDevice, State.currentTickTxEth_storeRows]
  split_ifs <;> rfl

theorem nextBKHOA_currentBKD (c : Counters) : c.nextBKHOA.currentBKD = c.currentBKD := rfl

theorem nextOUTSERVO_currentBKD (c : Counters) : c.nextOUTSERVO.currentBKD = c.currentBKD := rfl

/-- The poll tick clears health bits of the current packet and writes nothing else in the packets. -/
theorem ylsToYVPack_qwertyAllDevice (s : State) (k : Fin 2) :
    (qwertyAllDevice s).ylsToYVPack k =
      if k = s.currentTickTxEth then applyStores s.counters.next.clears (s.ylsToYVPack k)
      else s.ylsToYVPack k := by
  simp only [qwertyAllDevice, State.ylsToYVPack_storeRows, Counters.next, Counters.clears]
  by_cases h₁ : s.counters.nextSlot.currentBKD < inTotalBKD
  · simp only [h₁, if_true]
    exact State.ylsToYVPack_store _ _ k
  · by_cases h₂ : s.counters.nextSlot.currentBKD = inTotalBKD
    · simp only [h₂, Nat.lt_irrefl, if_true, if_false, nextBKHOA_currentBKD]
      exact State.ylsToYVPack_store _ _ k
    · simp only [h₁, h₂, if_false, nextOUTSERVO_currentBKD]
      exact State.ylsToYVPack_store _ _ k

theorem messageFromBKD_qwertyAllDevice (s : State) :
    (qwertyAllDevice s).messageFromBKD =
      applyRowStores [.byte s.counters.next.currentBKD 0 (BitVec.ofNat 8 s.counters.next.address),
        .crc s.counters.next.currentBKD (usartBufferTxSizeYLS - 1)] s.messageFromBKD := by
  simp only [qwertyAllDevice, Counters.next]
  by_cases h₁ : s.counters.nextSlot.currentBKD < inTotalBKD
  · simp [h₁, State.pollBKD, State.storeRows, State.putAddress, Counters.address]
  · by_cases h₂ : s.counters.nextSlot.currentBKD = inTotalBKD
    · simp [h₂, State.pollBKHOA, State.storeRows, State.putAddress, Counters.address, nextBKHOA_currentBKD]
    · simp [h₁, h₂, State.pollOUTSERVO, State.storeRows, State.putAddress, Counters.address,
        nextOUTSERVO_currentBKD]

/-! ### Ranges of the counters -/

namespace Counters.InRange
variable {c : Counters}

theorem nextSlot (h : c.InRange) : c.nextSlot.InRange := by
  obtain ⟨h₁, h₂, h₃, h₄, h₅⟩ := h
  have hb : incr8 c.currentBKD = c.currentBKD + 1 := incr8_of_lt (by omega)
  have hd : incr8 c.currentDeviceInBKDx = c.currentDeviceInBKDx + 1 := incr8_of_lt (by omega)
  simp only [Counters.nextSlot, hb, hd, inTotalBKD, deviceInBKD]
  split_ifs <;> constructor <;> simp only <;> omega

theorem nextBKHOA (h : c.InRange) : c.nextBKHOA.InRange := by
  obtain ⟨h₁, h₂, h₃, h₄, h₅⟩ := h
  have hb : incr8 c.currentDeviceInBKHOA = c.currentDeviceInBKHOA + 1 := incr8_of_lt (by omega)
  refine ⟨h₁, h₂, h₃, ?_, h₅⟩
  simp only [Counters.nextBKHOA, hb, andAdrBKHOA, startAdrBKHOA, deviceInBKD, inTotalBKD]
  split_ifs <;> omega

theorem nextOUTSERVO (h : c.InRange) : c.nextOUTSERVO.InRange := by
  obtain ⟨h₁, h₂, h₃, h₄, h₅⟩ := h
  have hb : incr8 c.currentDeviceInOUTSERVO = c.currentDeviceInOUTSERVO + 1 := incr8_of_lt (by omega)
  refine ⟨h₁, h₂, h₃, h₄, ?_⟩
  simp only [Counters.nextOUTSERVO, hb, andAdrOUTSERVO, startAdrOUTSERVO, deviceInBKD, inTotalBKD]
  split_ifs <;> omega

theorem next (h : c.InRange) : c.next.InRange := by
  simp only [Counters.next]
  split_ifs
  · exact h.nextSlot
  · exact h.nextSlot.nextBKHOA
  · exact h.nextSlot.nextOUTSERVO

end Counters.InRange

/-! ### Steps -/

theorem counters_step (s : State) (e : Event) :
    (step s e).counters = match e with | .tick => s.counters.next | _ => s.counters := by
  cases e with
  | tick => exact counters_qwertyAllDevice s
  | frame message size => rfl
  | request message => rfl

theorem inRange_boot : boot.counters.InRange := ⟨by decide, by decide, by decide, by decide, by decide⟩

theorem inRange_step {s : State} (h : s.counters.InRange) (e : Event) : (step s e).counters.InRange := by
  rw [counters_step]
  cases e with
  | tick => exact h.next
  | frame message size => exact h
  | request message => exact h

theorem inRange_after (evs : List Event) : (after evs).counters.InRange := by
  have hstep : ∀ (s : State) e, s.counters.InRange → (step s e).counters.InRange := fun _ e h => inRange_step h e
  exact Machine.run_invariant hstep inRange_boot evs

theorem Reachable.inRange {s : State} (h : Reachable s) : s.counters.InRange := by
  obtain ⟨evs, rfl⟩ := h
  exact inRange_after evs

theorem counters_ticks (n : Nat) : (after (List.replicate n .tick)).counters = Counters.next^[n] boot.counters := by
  induction n with
  | zero => rfl
  | succ n ih =>
    rw [List.replicate_succ', after_concat, counters_step, ih, Function.iterate_succ_apply']

/-- The packets after a step: a tick clears, a frame stores what it leads to, a request leaves both. -/
theorem ylsToYVPack_step (s : State) (e : Event) (k : Fin 2) :
    (step s e).ylsToYVPack k =
      match e with
      | .tick => if k = s.currentTickTxEth then applyStores s.counters.next.clears (s.ylsToYVPack k)
          else s.ylsToYVPack k
      | .frame message size => if k = s.currentTickTxEth then
          applyStores (replyStores s.counters message size) (s.ylsToYVPack k) else s.ylsToYVPack k
      | .request _ => s.ylsToYVPack k := by
  cases e with
  | tick => exact ylsToYVPack_qwertyAllDevice s k
  | frame message size => exact State.ylsToYVPack_store s _ k
  | request message => rfl

theorem currentTickTxEth_step (s : State) (e : Event) :
    (step s e).currentTickTxEth =
      match e with | .request _ => 1 - s.currentTickTxEth | _ => s.currentTickTxEth := by
  cases e with
  | tick => exact currentTickTxEth_qwertyAllDevice s
  | frame message size => rfl
  | request message => exact State.currentTickTxEth_switchPacket _

theorem buffer_checkMessageYV (s : State) (message : Memory) :
    (checkMessageYV s message).2.buffer = 1 - s.currentTickTxEth :=
  currentTickTxEth_step s (.request message)

theorem ylsToYVPack_checkMessageYV (s : State) (message : Memory) :
    (checkMessageYV s message).1.ylsToYVPack = s.ylsToYVPack := rfl

end YlsFirmware
