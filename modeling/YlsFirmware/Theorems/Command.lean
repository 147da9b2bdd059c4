import YlsFirmware.Theorems.Rows
import YlsFirmware.Theorems.Switches

/-! # Command frames of the BKD

A frame to a device of a BKD, read with the layout that protocol.h declares for it. The bytes of the angles
are stored one place behind that layout, and the request leaves a checksum in the reserve. -/

namespace YlsFirmware
open Packed

/-! ### The frame of a slot -/

/-- A frame read as `YLSToBKDPacket` gives the address of the device and what packet `rxpak` commands to
    block `b`. -/
structure Decodes (frame : Memory) (adress : Nat) (rxpak : Memory) (b : Nat) : Prop where
  adress : frame (ylsToBKDPacket.addr ⟨.adress, []⟩) = BitVec.ofNat 8 adress
  command : frame (ylsToBKDPacket.addr ⟨.command, []⟩) =
    if rxpak (yvToYLSData.addr ⟨.command, []⟩) = yvCommandTest1 ∨
        rxpak (yvToYLSData.addr ⟨.command, []⟩) = yvCommandTest2 then
      rxpak (yvToYLSData.addr ⟨.command, []⟩)
    else 0
  ypsMask : frame (ylsToBKDPacket.addr ⟨.ypsMask, []⟩) = rxpak (yvToYLSData.addr ⟨.ypsMask, [b]⟩)
  ykpAngle1 : load16 frame (ylsToBKDPacket.addr ⟨.ykpAngle1, []⟩) = load16 rxpak (yvToYLSData.addr ⟨.ykpAngle, [b, 0]⟩)
  ykpAngle2 : load16 frame (ylsToBKDPacket.addr ⟨.ykpAngle2, []⟩) = load16 rxpak (yvToYLSData.addr ⟨.ykpAngle, [b, 1]⟩)
  reserv1 : ∀ i < 12, frame (ylsToBKDPacket.addr ⟨.reserv1, [i]⟩) = 0
  src : frame (ylsToBKDPacket.addr ⟨.src, []⟩) = crc8 frame (usartBufferTxSizeYLS - 1)

/-- The checksum that a request puts into row `b` when it commands no angles: of the address byte that the
    row had, the command, the mask and zeros. -/
def strayCrc (adress : Byte) (rxpak : Memory) (b : Nat) : Byte :=
  crc8 (fun i => [adress, yvCommand rxpak, rxpak (yvToYLSData.addr ⟨.ypsMask, [b]⟩)].getD i 0) 15

theorem load16_eq_zero_iff {m : Memory} {o : Nat} : load16 m o = 0 ↔ m o = 0 ∧ m (o + 1) = 0 := by
  have hzero : (0 : BitVec 16) = (0 : Byte) ++ (0 : Byte) := rfl
  rw [load16, hzero, append_inj, and_comm]

theorem crc8_commandRow {row : Memory} (hzero : ∀ i, i = 3 ∨ 8 ≤ i ∧ i < 15 ∨ 16 ≤ i ∧ i < 19 → row i = 0)
    {rxpak : Memory} {b : Nat} (h₀ : load16 rxpak (yvToYLSData.addr ⟨.ykpAngle, [b, 0]⟩) = 0)
    (h₁ : load16 rxpak (yvToYLSData.addr ⟨.ykpAngle, [b, 1]⟩) = 0) :
    crc8 (commandRow rxpak b row) 15 = strayCrc (row 0) rxpak b := by
  rw [load16_eq_zero_iff] at h₀ h₁
  obtain ⟨h4, h5, h6, h7⟩ := commandRow_ykpAngle rxpak b row
  refine crc8_congr fun i hi => ?_
  match i with
  | 0 => rfl
  | 1 => rfl
  | 2 => exact commandRow_ypsMask rxpak b row
  | 4 => exact h4.trans h₀.1
  | 5 => exact h5.trans h₀.2
  | 6 => exact h6.trans h₁.1
  | 7 => exact h7.trans h₁.2
  | 3 => exact hzero 3 (.inl rfl)
  | i + 8 => exact (commandRow_of_ne (by omega) rxpak b row).trans (hzero _ (by omega))

/-- Two halfwords that are read one byte early, out of what lies before them, are read right exactly if both are
    zero. -/
theorem load16_shifted_iff {m : Memory} {o o' : Nat} :
    m o ++ (0 : Byte) = load16 m o ∧ m o' ++ m (o + 1) = load16 m o' ↔ load16 m o = 0 ∧ load16 m o' = 0 := by
  rw [load16_eq_zero_iff, load16_eq_zero_iff, load16, load16, append_inj, append_inj]
  constructor
  · rintro ⟨⟨hhigh, hlow⟩, hhigh', hlow'⟩
    have hzero : m (o + 1) = 0 := hhigh.symm.trans hlow.symm
    have hzero' : m o' = 0 := hlow'.symm.trans hzero
    exact ⟨⟨hlow.symm, hzero⟩, hzero', hhigh'.symm.trans hzero'⟩
  · rintro ⟨⟨hlow, hhigh⟩, hlow', hhigh'⟩
    exact ⟨⟨hlow.trans hhigh.symm, hlow.symm⟩, hlow'.trans hhigh'.symm, hhigh.trans hlow'.symm⟩

section PollRow
variable (adress : Nat) (rxpak : Memory) (b : Nat) (row : Memory)

theorem pollRow_sealRow_of_ne {i : Nat} (h : i ≠ 0 ∧ i ≠ 15 ∧ i ≠ 19) :
    pollRow adress (sealRow 15 (commandRow rxpak b row)) i = commandRow rxpak b row i := by
  rw [pollRow_of_ne h.1 h.2.2, sealRow_of_ne h.2.1]

theorem pollRow_sealRow_crc :
    pollRow adress (sealRow 15 (commandRow rxpak b row)) 15 = crc8 (commandRow rxpak b row) 15 := by
  rw [pollRow_of_ne (by decide) (by decide), sealRow, Function.update_self]

theorem load16_ykpAngle1 (h3 : row 3 = 0) :
    load16 (pollRow adress (sealRow 15 (commandRow rxpak b row))) (ylsToBKDPacket.addr ⟨.ykpAngle1, []⟩) =
      rxpak (yvToYLSData.addr ⟨.ykpAngle, [b, 0]⟩) ++ (0 : Byte) := by
  obtain ⟨h4, -, -, -⟩ := commandRow_ykpAngle rxpak b row
  have haddr : ylsToBKDPacket.addr ⟨.ykpAngle1, []⟩ = 3 := rfl
  have hzero : commandRow rxpak b row 3 = 0 := h3
  rw [haddr, load16, pollRow_sealRow_of_ne _ _ _ _ (by decide), pollRow_sealRow_of_ne _ _ _ _ (by decide), hzero, h4]

theorem load16_ykpAngle2 :
    load16 (pollRow adress (sealRow 15 (commandRow rxpak b row))) (ylsToBKDPacket.addr ⟨.ykpAngle2, []⟩) =
      rxpak (yvToYLSData.addr ⟨.ykpAngle, [b, 1]⟩) ++ rxpak (yvToYLSData.addr ⟨.ykpAngle, [b, 0]⟩ + 1) := by
  obtain ⟨-, h5, h6, -⟩ := commandRow_ykpAngle rxpak b row
  have haddr : ylsToBKDPacket.addr ⟨.ykpAngle2, []⟩ = 5 := rfl
  rw [haddr, load16, pollRow_sealRow_of_ne _ _ _ _ (by decide), pollRow_sealRow_of_ne _ _ _ _ (by decide), h5, h6]

end PollRow

/-- The frame made of a row decodes to what the packet commands exactly if both angles are zero and the
    checksum in the reserve happens to be zero. -/
theorem decodes_pollRow_iff {row : Memory} (hzero : ∀ i, i = 3 ∨ 8 ≤ i ∧ i < 15 ∨ 16 ≤ i ∧ i < 19 → row i = 0)
    (adress : Nat) (rxpak : Memory) (b : Nat) :
    Decodes (pollRow adress (sealRow 15 (commandRow rxpak b row))) adress rxpak b ↔
      load16 rxpak (yvToYLSData.addr ⟨.ykpAngle, [b, 0]⟩) = 0 ∧
        load16 rxpak (yvToYLSData.addr ⟨.ykpAngle, [b, 1]⟩) = 0 ∧ strayCrc (row 0) rxpak b = 0 := by
  have hangle1 := load16_ykpAngle1 adress rxpak b row (hzero 3 (.inl rfl))
  have hangle2 := load16_ykpAngle2 adress rxpak b row
  have h15 := pollRow_sealRow_crc adress rxpak b row
  constructor
  · intro h
    obtain ⟨h₀, h₁⟩ := load16_shifted_iff.mp ⟨hangle1.symm.trans h.ykpAngle1, hangle2.symm.trans h.ykpAngle2⟩
    refine ⟨h₀, h₁, ?_⟩
    rw [← crc8_commandRow hzero h₀ h₁, ← h15]
    exact h.reserv1 8 (by decide)
  · rintro ⟨h₀, h₁, hcrc⟩
    obtain ⟨hread₁, hread₂⟩ := load16_shifted_iff.mpr ⟨h₀, h₁⟩
    refine ⟨rfl, ?_, ?_, hangle1.trans hread₁, hangle2.trans hread₂, fun i hi => ?_, sealRow_self _ _⟩
    · rw [← yvCommand_eq]
      exact pollRow_sealRow_of_ne _ _ _ _ (by decide)
    · exact (pollRow_sealRow_of_ne _ _ _ _ (by decide)).trans (commandRow_ypsMask rxpak b row)
    · have haddr : ylsToBKDPacket.addr ⟨.reserv1, [i]⟩ = 7 + (i * 1 + 0) * 1 := rfl
      rw [haddr]
      by_cases h8 : i = 8
      · subst h8
        exact h15.trans ((crc8_commandRow hzero h₀ h₁).trans hcrc)
      · rw [pollRow_sealRow_of_ne _ _ _ _ (by omega)]
        by_cases h7 : i = 0
        · subst h7
          obtain ⟨-, -, -, hhigh⟩ := commandRow_ykpAngle rxpak b row
          exact hhigh.trans (load16_eq_zero_iff.mp h₁).2
        · rw [commandRow_of_ne (by omega)]
          exact hzero _ (by omega)

/-! ### Runs -/

theorem frame_bkd (pre : List Event) (message : Memory) {evs : List Event} (h : ∀ e ∈ evs, ∀ m, e ≠ .request m)
    {b j : Fin 12} (hsel : (after (pre ++ .request message :: evs ++ [.tick])).counters.Selects (.bkd b j)) :
    (after (pre ++ .request message :: evs ++ [.tick])).messageFromBKD b =
      pollRow (Device.bkd b j).address (sealRow 15 (commandRow message b ((after pre).messageFromBKD b))) := by
  have hrun : after (pre ++ .request message :: evs ++ [.tick]) =
      Machine.run step (after pre) (.request message :: evs ++ [.tick]) := by
    rw [after, List.append_assoc, Machine.run_append]
    rfl
  rw [hrun] at hsel ⊢
  rw [frame_eq _ message h (Nat.lt_succ_of_lt b.isLt) hsel.1, hsel.2]

/-- A poll tick after a request, with ticks and frames in between, sends to the device that it selects a frame
    that decodes to what the request commands exactly if both angles are zero and the checksum left in the
    reserve is zero. -/
theorem decodes_iff (pre : List Event) (message : Memory) {evs : List Event} (h : ∀ e ∈ evs, ∀ m, e ≠ .request m)
    {b j : Fin 12} (hsel : (after (pre ++ .request message :: evs ++ [.tick])).counters.Selects (.bkd b j)) :
    Decodes ((after (pre ++ .request message :: evs ++ [.tick])).messageFromBKD b) (Device.bkd b j).address message b ↔
      load16 message (yvToYLSData.addr ⟨.ykpAngle, [b, 0]⟩) = 0 ∧
        load16 message (yvToYLSData.addr ⟨.ykpAngle, [b, 1]⟩) = 0 ∧
        strayCrc ((after pre).messageFromBKD b 0) message b = 0 := by
  rw [frame_bkd pre message h hsel]
  exact decodes_pollRow_iff (fun i hi => row_eq_zero pre b hi) _ message b

/-- A request for angle 1, followed by the first poll of device 1 of BKD 1. -/
theorem not_decodes_angle :
    ¬ Decodes ((after [.request fun i => if i = 17 then 1#8 else 0#8, .tick]).messageFromBKD 1)
      (Device.bkd 1 0).address (fun i => if i = 17 then 1#8 else 0#8) 1 := by
  have hnil : ∀ e ∈ ([] : List Event), ∀ m, e ≠ .request m := by simp
  have hsel : (after ([] ++ .request (fun i => if i = 17 then 1#8 else 0#8) :: [] ++ [.tick])).counters.Selects
      (.bkd 1 0) := by decide
  have hframe := frame_bkd [] _ hnil hsel
  intro hd
  have hdecodes := (decodes_pollRow_iff (fun i hi => row_eq_zero [] 1 hi) _ _ 1).mp (hframe ▸ hd)
  exact absurd hdecodes.1 (by decide)

/-- A request with the one mask of BKD 1 for which the checksum left in the reserve is zero before any poll. -/
theorem decodes_mask :
    Decodes ((after [.request fun i => if i = 2 then 129#8 else 0#8, .tick]).messageFromBKD 1)
      (Device.bkd 1 0).address (fun i => if i = 2 then 129#8 else 0#8) 1 := by
  have hnil : ∀ e ∈ ([] : List Event), ∀ m, e ≠ .request m := by simp
  have hsel : (after ([] ++ .request (fun i => if i = 2 then 129#8 else 0#8) :: [] ++ [.tick])).counters.Selects
      (.bkd 1 0) := by decide
  exact (decodes_iff [] _ hnil hsel).mpr ⟨by decide, by decide, by decide +kernel⟩

end YlsFirmware
