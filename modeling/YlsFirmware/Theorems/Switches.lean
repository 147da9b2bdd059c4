import Mathlib.Data.Fintype.Basic
import Mathlib.Tactic.FinCases
import YlsFirmware.Theorems.Schedule

/-! # The switches of uart.c

The arms of the switches agree with the device table: a poll clears the bit of the device that the counters
select, and a 32-byte frame sets that bit and stores the payload in the device's entry. In the slot of the
outer servos, a frame goes to the handler of the BKD slots instead (`replyStores_bkd` with BKD 13). -/

namespace YlsFirmware
open Packed

/-- Below the first of consecutive cases a `switch` does nothing. -/
theorem switch_eq_nil {x a n : Nat} {arms : List (Nat × List Store)}
    (harms : arms.map Prod.fst = (List.range n).map (a + ·)) (h : x < a) : switch x arms = [] := by
  have hnone : arms.lookup x = none := by
    rw [List.lookup_eq_none_iff]
    intro p hp
    have hrange : p.1 ∈ (List.range n).map (a + ·) := harms ▸ List.mem_map_of_mem hp
    obtain ⟨i, -, hi⟩ := List.mem_map.mp hrange
    have hne : x ≠ p.1 := by omega
    simpa using hne
  rw [switch, hnone]
  rfl

/-! ### What the counters select -/

section Selects
variable {c : Counters}

theorem selects_bkd_iff {b j : Fin 12} :
    c.Selects (.bkd b j) ↔ c.currentBKD = b ∧ c.currentDeviceInBKDx = j + 1 := by
  have hb : (b : Nat) < inTotalBKD := b.isLt
  have ha : c.currentBKD = b → c.address = c.currentDeviceInBKDx + b * 12 := fun h => by
    rw [Counters.address, if_pos (h ▸ hb), h]
    rfl
  constructor
  · rintro ⟨h₁, h₂⟩
    rw [ha h₁, Device.address] at h₂
    exact ⟨h₁, by omega⟩
  · rintro ⟨h₁, h₂⟩
    refine ⟨h₁, ?_⟩
    rw [ha h₁, Device.address]
    omega

theorem selects_bkhoA_iff {u : Fin 24} :
    c.Selects (.bkhoA u) ↔ c.currentBKD = 12 ∧ c.currentDeviceInBKHOA = 145 + u := by
  simp only [Counters.Selects, Device.slot, Device.address, Counters.address, inTotalBKD, startAdrBKHOA, deviceInBKD]
  constructor
  · rintro ⟨h₁, h₂⟩
    exact ⟨h₁, by simpa [h₁] using h₂⟩
  · rintro ⟨h₁, h₂⟩
    exact ⟨h₁, by simpa [h₁] using h₂⟩

theorem selects_outServo_iff {k : Fin 8} :
    c.Selects (.outServo k) ↔ c.currentBKD = 13 ∧ c.currentDeviceInOUTSERVO = 169 + k := by
  simp only [Counters.Selects, Device.slot, Device.address, Counters.address, inTotalBKD, startAdrOUTSERVO,
    deviceInBKD]
  constructor
  · rintro ⟨h₁, h₂⟩
    exact ⟨h₁, by simpa [h₁] using h₂⟩
  · rintro ⟨h₁, h₂⟩
    exact ⟨h₁, by simpa [h₁] using h₂⟩

theorem exists_device (hc : c.InRange) : ∃ j : Fin 12, c.currentDeviceInBKDx = j + 1 := by
  have h₁ := hc.one_le
  have h₂ := hc.le_twelve
  exact ⟨⟨c.currentDeviceInBKDx - 1, by omega⟩, by simp only; omega⟩

theorem exists_selects_bkd (hc : c.InRange) (hs : c.currentBKD < 12) : ∃ b j, c.Selects (.bkd b j) := by
  obtain ⟨j, hj⟩ := exists_device hc
  exact ⟨⟨c.currentBKD, hs⟩, j, selects_bkd_iff.mpr ⟨rfl, hj⟩⟩

theorem exists_selects_bkhoA (hc : c.InRange) (hs : c.currentBKD = 12) (ha : 145 ≤ c.currentDeviceInBKHOA) :
    ∃ u, c.Selects (.bkhoA u) := by
  have h := hc.bkhoA
  exact ⟨⟨c.currentDeviceInBKHOA - 145, by omega⟩, selects_bkhoA_iff.mpr ⟨hs, by simp only; omega⟩⟩

theorem exists_selects_outServo (hc : c.InRange) (hs : c.currentBKD = 13) (ha : 169 ≤ c.currentDeviceInOUTSERVO) :
    ∃ k, c.Selects (.outServo k) := by
  have h := hc.outServo
  exact ⟨⟨c.currentDeviceInOUTSERVO - 169, by omega⟩, selects_outServo_iff.mpr ⟨hs, by simp only; omega⟩⟩

/-- The slot of the servos, the slot of the BKHO-A before its devices are addressed, or a slot in which a device
    is selected that is not a servo. -/
theorem slot_cases (hc : c.InRange) :
    c.currentBKD = 13 ∨ (c.currentBKD = 12 ∧ c.currentDeviceInBKHOA < 145) ∨
      ∃ d, c.Selects d ∧ c.currentBKD ≠ 13 := by
  have hs := hc.slot
  rcases Nat.lt_trichotomy c.currentBKD 12 with h | h | h
  · obtain ⟨b, j, hd⟩ := exists_selects_bkd hc h
    exact .inr (.inr ⟨_, hd, by omega⟩)
  · rcases Nat.lt_or_ge c.currentDeviceInBKHOA 145 with ha | ha
    · exact .inr (.inl ⟨h, ha⟩)
    · obtain ⟨u, hd⟩ := exists_selects_bkhoA hc h ha
      exact .inr (.inr ⟨_, hd, by omega⟩)
  · exact .inl (by omega)

theorem not_selects_of_lt (h12 : c.currentBKD = 12) (hadr : c.currentDeviceInBKHOA < 145) (d : Device) :
    ¬ c.Selects d := by
  intro h
  cases d with
  | bkd b j => exact absurd (selects_bkd_iff.mp h).1 (by have := b.isLt; omega)
  | bkhoA u => exact absurd (selects_bkhoA_iff.mp h).2 (by omega)
  | outServo k => exact absurd (selects_outServo_iff.mp h).1 (by omega)

end Selects

/-! ### Health bits -/

theorem bit_clear_healthBit (d : Device) (pk : Memory) (n : Nat) :
    bit ((Store.clear d.field d.index).apply pk) n = (bit pk n && !decide (n = d.healthBit)) := by
  rw [Store.apply, BitField.bit_andNotBit d.field.width_le]
  have hiff : n = d.field.bits.offset + d.index ∧ d.index < d.field.bits.width ↔ n = d.healthBit :=
    and_iff_left d.index_lt_width
  simp only [hiff]

theorem bit_set_healthBit (d : Device) (pk : Memory) (n : Nat) :
    bit ((Store.set d.field d.index).apply pk) n = (bit pk n || decide (n = d.healthBit)) := by
  rw [Store.apply, BitField.bit_orBit d.field.width_le]
  have hiff : n = d.field.bits.offset + d.index ∧ d.index < d.field.bits.width ↔ n = d.healthBit :=
    and_iff_left d.index_lt_width
  simp only [hiff]

/-! ### Polls -/

section Polls
variable {c : Counters}

theorem clearBKD_eq {j : Fin 12} (h : c.currentDeviceInBKDx = j + 1) (b : Fin 12) :
    c.clearBKD = [.clear (Device.bkd b j).field c.currentBKD] := by
  unfold Counters.clearBKD
  rw [h]
  fin_cases j <;> rfl

theorem clearBKHOA_eq {u : Fin 24} (h : c.currentDeviceInBKHOA = 145 + u) :
    c.clearBKHOA = [.clear (Device.bkhoA u).field 0] := by
  unfold Counters.clearBKHOA
  rw [h]
  fin_cases u <;> rfl

theorem clearOUTSERVO_eq {k : Fin 8} (h : c.currentDeviceInOUTSERVO = 169 + k) :
    c.clearOUTSERVO = [.clear (Device.outServo k).field 0] := by
  unfold Counters.clearOUTSERVO
  rw [h]
  fin_cases k <;> rfl

theorem clears_bkd (h : c.currentBKD < 12) : c.clears = c.clearBKD := if_pos h

theorem clears_bkhoA (h : c.currentBKD = 12) : c.clears = c.clearBKHOA := by
  simp [Counters.clears, h, inTotalBKD]

theorem clears_outServo (h : c.currentBKD = 13) : c.clears = c.clearOUTSERVO := by
  simp [Counters.clears, h, inTotalBKD]

theorem clears_of_selects {d : Device} (h : c.Selects d) : c.clears = [.clear d.field d.index] := by
  cases d with
  | bkd b j =>
    obtain ⟨h₁, h₂⟩ := selects_bkd_iff.mp h
    rw [clears_bkd (h₁ ▸ b.isLt), clearBKD_eq h₂ b, h₁]
    rfl
  | bkhoA u =>
    obtain ⟨h₁, h₂⟩ := selects_bkhoA_iff.mp h
    rw [clears_bkhoA h₁, clearBKHOA_eq h₂]
    rfl
  | outServo k =>
    obtain ⟨h₁, h₂⟩ := selects_outServo_iff.mp h
    rw [clears_outServo h₁, clearOUTSERVO_eq h₂]
    rfl

theorem clears_of_not_selects (hc : c.InRange) (h : ∀ d, ¬ c.Selects d) : c.clears = [] := by
  rcases slot_cases hc with h13 | ⟨h12, hlt⟩ | ⟨d, hd, -⟩
  · have hlt : c.currentDeviceInOUTSERVO < 169 := by
      by_contra hge
      obtain ⟨k, hd⟩ := exists_selects_outServo hc h13 (by omega)
      exact h _ hd
    rw [clears_outServo h13]
    exact @switch_eq_nil _ 169 8 _ rfl hlt
  · rw [clears_bkhoA h12]
    exact @switch_eq_nil _ 145 24 _ rfl hlt
  · exact absurd hd (h d)

theorem bit_clears (hc : c.InRange) (d : Device) (pk : Memory) :
    bit (applyStores c.clears pk) d.healthBit = (bit pk d.healthBit && !decide (c.Selects d)) := by
  by_cases hex : ∃ d', c.Selects d'
  · obtain ⟨d', hd'⟩ := hex
    rw [clears_of_selects hd', applyStores_cons, applyStores_nil, bit_clear_healthBit]
    simp only [Device.healthBit_inj_iff, hd'.eq_iff]
  · have hno : ∀ d', ¬ c.Selects d' := fun d' hd' => hex ⟨d', hd'⟩
    simp [clears_of_not_selects hc hno, hno d]

theorem apply_clear_of_ge {f : HealthField} {n o : Nat} {pk : Memory} (h : 22 ≤ o) :
    (Store.clear f n).apply pk o = pk o :=
  BitField.put_of_ge f.bits pk (Nat.le_trans f.bits_end_le (Nat.mul_le_mul_left 8 h)) _

theorem clears_of_ge (hc : c.InRange) {o : Nat} (h : 22 ≤ o) (pk : Memory) : applyStores c.clears pk o = pk o := by
  by_cases hex : ∃ d, c.Selects d
  · obtain ⟨d, hd⟩ := hex
    rw [clears_of_selects hd, applyStores_cons, applyStores_nil, apply_clear_of_ge h]
  · rw [clears_of_not_selects hc fun d hd => hex ⟨d, hd⟩, applyStores_nil]

theorem tick_of_ge {s : State} (hs : s.counters.InRange) {o : Nat} (h : 22 ≤ o) (k : Fin 2) :
    (step s .tick).ylsToYVPack k o = s.ylsToYVPack k o := by
  rw [ylsToYVPack_step]
  by_cases hk : k = s.currentTickTxEth
  · simp [hk, clears_of_ge hs.next h]
  · simp [hk]

theorem ticks_of_ge {o : Nat} (h : 22 ≤ o) (n : Nat) (k : Fin 2) :
    (after (List.replicate n .tick)).ylsToYVPack k o = 0 := by
  induction n with
  | zero => rfl
  | succ n ih => rw [List.replicate_succ', after_concat, tick_of_ge (inRange_after _) h, ih]

end Polls

end YlsFirmware
