import YlsFirmware.Theorems.Replies

/-! # Health bits over whole runs

How each step changes the health bit of a device in the two packets, and what the packet sent to YV says
about the device: the packet is chosen after the switch, so its bit is the outcome of the last poll or answer
made before the previous request. -/

namespace YlsFirmware
open Packed

theorem bit_step {s : State} (hs : s.counters.InRange) (e : Event) (k : Fin 2) (d : Device) :
    bit ((step s e).ylsToYVPack k) d.healthBit =
      match e with
      | .tick => bit (s.ylsToYVPack k) d.healthBit &&
          !decide (k = s.currentTickTxEth ∧ s.counters.next.Selects d)
      | .frame message size => bit (s.ylsToYVPack k) d.healthBit ||
          decide (k = s.currentTickTxEth ∧ Answers message size ∧ s.counters.currentBKD ≠ 13 ∧ s.counters.Selects d)
      | .request _ => bit (s.ylsToYVPack k) d.healthBit := by
  rw [ylsToYVPack_step]
  cases e with
  | tick =>
    by_cases hk : k = s.currentTickTxEth
    · simp [hk, bit_clears hs.next]
    · simp [hk]
  | frame message size =>
    by_cases hk : k = s.currentTickTxEth
    · simp [hk, bit_replyStores hs]
    · simp [hk]
  | request message => rfl

/-- No step sets the bit of a servo. -/
theorem bit_outServo {s : State} (h : Reachable s) (k : Fin 2) (i : Fin 8) :
    bit (s.ylsToYVPack k) (Device.outServo i).healthBit = false := by
  obtain ⟨evs, rfl⟩ := h
  induction evs using List.reverseRecOn with
  | nil => exact bit_zero _
  | append_singleton evs e ih =>
    have h13 : (after evs).counters.currentBKD ≠ 13 → ¬ (after evs).counters.Selects (.outServo i) := fun h h' =>
      h (selects_outServo_iff.mp h').1
    rw [after_concat, bit_step (inRange_after evs), ih]
    cases e with
    | tick => rfl
    | frame message size => simpa using fun _ _ => h13
    | request message => rfl

/-! ### The history of a device -/

/-- What the polls and the frames of a run tell about one device. -/
structure HealthRecord where
  /-- whether an accepted frame has come in the slot of the device, while that slot is open -/
  openSlot : Option Bool
  /-- the same for the last slot of the device that has been closed by the next poll tick -/
  closedSlot : Option Bool
  /-- for each of the two packets: the last that happened to the device while it was current is an answer,
      not a poll -/
  answered : Fin 2 → Bool

def HealthRecord.init : HealthRecord := ⟨none, none, fun _ => false⟩

def HealthRecord.observe (d : Device) (o : HealthRecord) (s : State) : Event → HealthRecord
  | .tick =>
    let selects := s.counters.next.Selects d
    { openSlot := if selects then some false else none
      closedSlot := o.openSlot <|> o.closedSlot
      answered := if selects then Function.update o.answered s.currentTickTxEth false else o.answered }
  | .frame message size =>
    { o with
      openSlot := o.openSlot.map (· || decide (Accepts message size))
      answered :=
        if Answers message size ∧ s.counters.Selects d then Function.update o.answered s.currentTickTxEth true
        else o.answered }
  | .request _ => o

def healthRecord (d : Device) (evs : List Event) : HealthRecord :=
  Machine.record step (HealthRecord.observe d) boot .init evs

/-- The health bits of a device that is not a servo are the outcomes recorded for the two packets. -/
theorem bit_eq_answered {d : Device} (hd : d.slot ≠ 13) (evs : List Event) (k : Fin 2) :
    bit ((after evs).ylsToYVPack k) d.healthBit = (healthRecord d evs).answered k := by
  let P : State → HealthRecord → Prop := fun s o =>
    s.counters.InRange ∧ ∀ k, bit (s.ylsToYVPack k) d.healthBit = o.answered k
  have hstep : ∀ s o e, P s o → P (step s e) (HealthRecord.observe d o s e) := by
    rintro s o e ⟨hs, ho⟩
    refine ⟨inRange_step hs e, fun k => ?_⟩
    rw [bit_step hs, ho]
    cases e with
    | tick =>
      by_cases hsel : s.counters.next.Selects d <;> by_cases hk : k = s.currentTickTxEth <;>
        simp [HealthRecord.observe, hsel, hk]
    | frame message size =>
      have h13 : s.counters.Selects d → s.counters.currentBKD ≠ 13 := fun h => h.1 ▸ hd
      by_cases hsel : s.counters.Selects d
      · by_cases ha : Answers message size <;> by_cases hk : k = s.currentTickTxEth <;>
          simp [HealthRecord.observe, hsel, ha, hk, h13 hsel]
      · simp [HealthRecord.observe, hsel]
    | request message => rfl
  have h₀ : P boot .init := ⟨inRange_boot, fun k => bit_zero _⟩
  exact (Machine.record_invariant hstep h₀ evs).2 k

/-- Up to the end of the first poll no bit is set. -/
theorem bit_first_tick (k : Fin 2) (d : Device) : bit ((step boot .tick).ylsToYVPack k) d.healthBit = false := by
  have hboot : bit (boot.ylsToYVPack k) d.healthBit = false := bit_zero _
  rw [bit_step inRange_boot, hboot]
  rfl

/-! ### The packet sent -/

/-- The packet that the request has sent reports the device as the last closed slot of the device went. -/
def Truthful (d : Device) (evs : List Event) (message : Memory) : Prop :=
  let sent := checkMessageYV (after evs) message
  bit (sent.1.ylsToYVPack sent.2.buffer) d.healthBit = true ↔ (healthRecord d evs).closedSlot = some true

theorem truthful_iff_bit {d : Device} {evs : List Event} {message : Memory} :
    Truthful d evs message ↔
      (bit ((after evs).ylsToYVPack (1 - (after evs).currentTickTxEth)) d.healthBit = true ↔
        (healthRecord d evs).closedSlot = some true) := by
  rw [Truthful, buffer_checkMessageYV, ylsToYVPack_checkMessageYV]

/-- A request sends the packet that was not current before it. A device that is not a servo is reported as its
    last closed slot went exactly if the last poll or answer that this packet got to see ended the same way. -/
theorem truthful_iff {d : Device} (hd : d.slot ≠ 13) (evs : List Event) (message : Memory) :
    Truthful d evs message ↔
      ((healthRecord d evs).answered (1 - (after evs).currentTickTxEth) = true ↔
        (healthRecord d evs).closedSlot = some true) := by
  rw [truthful_iff_bit, bit_eq_answered hd]

/-- BKD 1 is polled for the first time, its device 1 answers at once, and the slot is closed. The first request
    then sends the packet that nothing has been stored in yet. -/
theorem not_truthful_first_request :
    ¬ Truthful (.bkd 1 0) [.tick, .frame (sealFrame (fun _ => 0#8) 32) 32, .tick] fun _ => 0#8 := by
  have ha : Accepts (sealFrame (fun _ => 0#8) 32) 32 := accepts_sealFrame _ (by decide)
  have hsel : boot.counters.next.Selects (.bkd 1 0) := by decide
  have hcur : (after [.tick, .frame (sealFrame (fun _ => 0#8) 32) 32, .tick]).currentTickTxEth = 0 := by
    simp [after, currentTickTxEth_step]
  rw [truthful_iff_bit, bit_eq_answered (by decide), hcur]
  simp [healthRecord, Machine.record, Machine.watch, HealthRecord.observe, HealthRecord.init, ha, hsel,
    currentTickTxEth_step, ite_apply]

/-- A device that does not answer is reported as silent. -/
theorem truthful_silent : Truthful (.bkd 1 0) [.tick, .tick] fun _ => 0#8 := by
  refine (truthful_iff (by decide) _ _).mpr ?_
  have hsel : boot.counters.next.Selects (.bkd 1 0) := by decide
  simp [healthRecord, Machine.record, Machine.watch, HealthRecord.observe, HealthRecord.init, hsel,
    currentTickTxEth_step, after]

end YlsFirmware
