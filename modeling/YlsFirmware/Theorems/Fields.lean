import YlsFirmware.Theorems.Rows
import YlsFirmware.Theorems.Switches

/-! # Command fields of the BKHO-A and of the outer servos

The loop of `Check_message_YV` takes row 12 from index 12 of arrays with 12 elements, so it copies what
follows them in the packet, and has no pass for the row of the servos. Two runs from one state with different
packets show what the frames depend on. -/

namespace YlsFirmware
open Packed

section Fields
variable (s : State) (message message' : Memory) (evs : List Event)

def polledAfter (rxpak : Memory) : State := Machine.run step s (.request rxpak :: evs ++ [.tick])

/-- The 20 bytes that this poll tick sends. -/
def frameAfter (rxpak : Memory) : List Byte :=
  let s := polledAfter s evs rxpak
  read (s.messageFromBKD s.counters.currentBKD) 0 usartBufferTxSizeYLS

/-- The loop stays in the arrays, the row of the BKHO-A gets its mask, and the frames of the BKHO-A and of the
    servos tell packets apart that command them differently. -/
structure FieldsKept : Prop where
  reads : ∀ e ∈ yvReads, yvToYLSData.InBounds e
  mask : (step s (.request message)).messageFromBKD 12 2 = message (yvToYLSData.addr ⟨.ypsMaskBKHOA, []⟩)
  bkhoA : (polledAfter s evs message).counters.currentBKD = 12 →
    message (yvToYLSData.addr ⟨.ypsMaskBKHOA, []⟩) ≠ message' (yvToYLSData.addr ⟨.ypsMaskBKHOA, []⟩) →
    frameAfter s evs message ≠ frameAfter s evs message'
  outServo : ∀ k : Fin 8, (polledAfter s evs message).counters.Selects (.outServo k) →
    load16 message (yvToYLSData.addr ⟨.outYkpAngle, [k]⟩) ≠ load16 message' (yvToYLSData.addr ⟨.outYkpAngle, [k]⟩) →
    frameAfter s evs message ≠ frameAfter s evs message'

end Fields

/-- Row 12 reads the masks and the angles at index 12. -/
theorem not_reads : ¬ ∀ e ∈ yvReads, yvToYLSData.InBounds e := by
  intro h
  have h12 : (⟨.ypsMask, [12]⟩ : Elem YVToYLSField) ∈ yvReads := by decide
  have hbound := (h _ h12).2
  simp [yvToYLSData] at hbound

/-- The mask of the BKHO-A is the low byte of the first angle of BKD 0. -/
theorem row_mask (s : State) (message : Memory) :
    (step s (.request message)).messageFromBKD 12 2 = message (yvToYLSData.addr ⟨.ykpAngle, [0, 0]⟩) := by
  rw [messageFromBKD_step]
  exact commandRow_ypsMask message 12 (s.messageFromBKD 12)

section Frames
variable {s : State} {message message' : Memory} {evs : List Event}

theorem polledAfter_eq (rxpak : Memory) :
    polledAfter s evs rxpak = Machine.run step (step s (.request rxpak)) (evs ++ [.tick]) := by
  rw [polledAfter, List.cons_append, Machine.run_cons]

theorem polledAfter_related :
    (polledAfter s evs message).counters = (polledAfter s evs message').counters ∧
      (polledAfter s evs message).messageFromBKD 13 = (polledAfter s evs message').messageFromBKD 13 := by
  have hstep : ∀ (s t : State) e, s.counters = t.counters ∧ s.messageFromBKD 13 = t.messageFromBKD 13 →
      (step s e).counters = (step t e).counters ∧ (step s e).messageFromBKD 13 = (step t e).messageFromBKD 13 := by
    rintro s t e ⟨hc, hr⟩
    rw [counters_step, counters_step, messageFromBKD_step, messageFromBKD_step, hc, hr]
    exact ⟨rfl, rfl⟩
  have h₀ : (step s (.request message)).counters = (step s (.request message')).counters ∧
      (step s (.request message)).messageFromBKD 13 = (step s (.request message')).messageFromBKD 13 := by
    simp [messageFromBKD_step, counters_step]
  rw [polledAfter_eq, polledAfter_eq]
  exact @Machine.run_related _ _ _ (fun s t : State =>
    s.counters = t.counters ∧ s.messageFromBKD 13 = t.messageFromBKD 13) hstep _ _ h₀ _

/-- What row 12 takes from the packet: the command and what lies after the arrays. -/
def sources (rxpak : Memory) : Byte × Byte × BitVec 16 × BitVec 16 :=
  (yvCommand rxpak, rxpak (yvToYLSData.addr ⟨.ykpAngle, [0, 0]⟩), load16 rxpak (yvToYLSData.addr ⟨.outYkpAngle, [0]⟩),
    load16 rxpak (yvToYLSData.addr ⟨.outYkpAngle, [1]⟩))

theorem sources_eq_iff (row : Memory) :
    sources message = sources message' ↔
      ∀ i, i = 1 ∨ i = 2 ∨ i = 4 ∨ i = 5 ∨ i = 6 ∨ i = 7 →
        commandRow message 12 row i = commandRow message' 12 row i := by
  have hmask (m : Memory) : commandRow m 12 row 2 = m (yvToYLSData.addr ⟨.ykpAngle, [0, 0]⟩) :=
    commandRow_ypsMask m 12 row
  have hangle (m : Memory) : commandRow m 12 row 4 = m (yvToYLSData.addr ⟨.outYkpAngle, [0]⟩) ∧
      commandRow m 12 row 5 = m (yvToYLSData.addr ⟨.outYkpAngle, [0]⟩ + 1) ∧
      commandRow m 12 row 6 = m (yvToYLSData.addr ⟨.outYkpAngle, [1]⟩) ∧
      commandRow m 12 row 7 = m (yvToYLSData.addr ⟨.outYkpAngle, [1]⟩ + 1) := commandRow_ykpAngle m 12 row
  have hcommand (m : Memory) : commandRow m 12 row 1 = yvCommand m := rfl
  simp only [sources, Prod.mk.injEq, load16, append_inj, forall_eq_or_imp, forall_eq, hcommand, hmask, hangle]
  tauto

/-- The frames of the BKHO-A for two packets are the same exactly if the packets agree on what row 12 takes. -/
theorem frame_bkhoA_iff (h : ∀ e ∈ evs, ∀ m, e ≠ .request m)
    (h12 : (polledAfter s evs message).counters.currentBKD = 12) :
    frameAfter s evs message = frameAfter s evs message' ↔ sources message = sources message' := by
  have hcounters : (polledAfter s evs message).counters = (polledAfter s evs message').counters :=
    polledAfter_related.1
  have h12' : (polledAfter s evs message').counters.currentBKD = 12 := hcounters ▸ h12
  have hrow (rxpak : Memory) (hslot : (polledAfter s evs rxpak).counters.currentBKD = 12) :
      (polledAfter s evs rxpak).messageFromBKD 12 =
        pollRow (polledAfter s evs rxpak).counters.address (sealRow 15 (commandRow rxpak 12 (s.messageFromBKD 12))) :=
    frame_eq s rxpak h (by decide) hslot
  simp only [frameAfter, h12', read_eq_read_iff, Nat.zero_add, hrow message h12, hrow message' h12', hcounters]
  rw [sources_eq_iff (s.messageFromBKD 12)]
  constructor
  · intro heq i hi
    have hbyte := heq i (by simp only [usartBufferTxSizeYLS]; omega)
    rwa [pollRow_of_ne (by omega) (by omega), pollRow_of_ne (by omega) (by omega), sealRow_of_ne (by omega),
      sealRow_of_ne (by omega)] at hbyte
  · intro heq i _
    have hcommand : commandRow message 12 (s.messageFromBKD 12) = commandRow message' 12 (s.messageFromBKD 12) := by
      funext i
      by_cases hi : i = 1 ∨ i = 2 ∨ i = 4 ∨ i = 5 ∨ i = 6 ∨ i = 7
      · exact heq i hi
      · rw [commandRow_of_ne (by omega), commandRow_of_ne (by omega)]
    rw [hcommand]

theorem frame_outServo (h13 : (polledAfter s evs message).counters.currentBKD = 13) :
    frameAfter s evs message = frameAfter s evs message' := by
  have hrel := @polledAfter_related s message message' evs
  have h13' : (polledAfter s evs message').counters.currentBKD = 13 := hrel.1 ▸ h13
  simp only [frameAfter, h13, h13', hrel.2]

end Frames

theorem no_request_ticks {n : Nat} : ∀ e ∈ List.replicate n Event.tick, ∀ m, e ≠ .request m := by
  intro e he m
  rw [List.eq_of_mem_replicate he]
  nofun

/-- For no packets are the fields of the BKHO-A and of the servos kept. The mask of the BKHO-A arrives only where
    it happens to be the low byte of the first angle of BKD 0, its frames depend on that byte and on the first
    two angles of the servos, and the frames of the servos on nothing. -/
theorem not_fieldsKept (s : State) (message message' : Memory) {evs : List Event}
    (h : ∀ e ∈ evs, ∀ m, e ≠ .request m) :
    ¬ FieldsKept s message message' evs ∧
      ((step s (.request message)).messageFromBKD 12 2 = message (yvToYLSData.addr ⟨.ypsMaskBKHOA, []⟩) ↔
        message (yvToYLSData.addr ⟨.ykpAngle, [0, 0]⟩) = message (yvToYLSData.addr ⟨.ypsMaskBKHOA, []⟩)) ∧
      ((polledAfter s evs message).counters.currentBKD = 12 →
        (frameAfter s evs message = frameAfter s evs message' ↔ sources message = sources message')) ∧
      ((polledAfter s evs message).counters.currentBKD = 13 →
        frameAfter s evs message = frameAfter s evs message') :=
  ⟨fun hkept => not_reads hkept.reads, by rw [row_mask], frame_bkhoA_iff h, frame_outServo⟩

/-- Two packets that differ in the mask of the BKHO-A only lead to the same frame in its first slot. -/
theorem not_fieldsKept_mask :
    ¬ FieldsKept boot (fun _ => 0#8) (fun i => if i = 0 then 1#8 else 0#8) (List.replicate 11 .tick) := by
  have h12 : (polledAfter boot (List.replicate 11 .tick) fun _ => 0#8).counters.currentBKD = 12 := by
    decide +kernel
  exact fun h => h.bkhoA h12 (by decide) ((frame_bkhoA_iff no_request_ticks h12).mpr (by decide))

/-- Two packets that differ in the first angle of the servos lead to the same frame in their first slot. -/
theorem frame_outServo_angle :
    frameAfter boot (List.replicate 12 .tick) (fun _ => 0#8) =
      frameAfter boot (List.replicate 12 .tick) fun i => if i = 61 then 1#8 else 0#8 :=
  (not_fieldsKept boot _ _ no_request_ticks).2.2.2 (by decide +kernel)

end YlsFirmware
