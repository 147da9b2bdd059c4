import Mathlib.Tactic.SplitIfs
import YlsFirmware.Uart

/-! # The devices on the bus

What uart.c spells out in its switches as a table: 12 devices in each of 12 BKD, 24 devices of the BKHO-A
and 8 outer servos, each with its slot, its address, its health bit and, where the packet to YV has one, its
data entry. The theorems of `YlsFirmware/Theorems/Switches.lean` connect the switches to it. -/

namespace YlsFirmware
open Packed

inductive Device where
  | bkd (b j : Fin 12)
  | bkhoA (u : Fin 24)
  | outServo (k : Fin 8)
  deriving DecidableEq

namespace Device

def slot : Device → Nat
  | bkd b _ => b
  | bkhoA _ => inTotalBKD
  | outServo _ => inTotalBKD + 1

def address : Device → Nat
  | bkd b j => 12 * b + j + 1
  | bkhoA u => startAdrBKHOA + u
  | outServo k => startAdrOUTSERVO + k

/-- The health field that holds the device's bit: one field for each device number of the BKD, with a bit for
    each BKD, and one for each other device. -/
def field : Device → HealthField
  | bkd _ j => healthBitMap.getD j .ykpPoc1
  | bkhoA u => healthBitMap.getD (12 + u) .ykpPoc1
  | outServo k => healthBitMap.getD (43 - k) .ykpPoc1

def index : Device → Nat
  | bkd b _ => b
  | _ => 0

def healthBit (d : Device) : Nat := d.field.bits.offset + d.index

theorem healthBit_bkd (b j : Fin 12) : (bkd b j).healthBit = 12 * j + b := by
  have h : ∀ j : Fin 12, (healthBitMap.getD j .ykpPoc1).bits.offset = 12 * j := by decide
  exact congrArg (· + (b : Nat)) (h j)

theorem healthBit_bkhoA (u : Fin 24) : (bkhoA u).healthBit = 144 + u := by
  revert u
  decide

theorem healthBit_outServo (k : Fin 8) : (outServo k).healthBit = 175 - k := by
  revert k
  decide

theorem width_bkd (b j : Fin 12) : (bkd b j).field.width = 12 := by
  have h : ∀ j : Fin 12, (healthBitMap.getD j .ykpPoc1).width = 12 := by decide
  exact h j

theorem index_lt_width (d : Device) : d.index < d.field.width := by
  cases d with
  | bkd b j => exact (width_bkd b j).symm ▸ b.isLt
  | bkhoA u =>
    have h : ∀ u : Fin 24, (healthBitMap.getD (12 + u) .ykpPoc1).width = 1 := by decide
    exact (h u).symm ▸ Nat.one_pos
  | outServo k =>
    have h : ∀ k : Fin 8, (healthBitMap.getD (43 - k) .ykpPoc1).width = 1 := by decide
    exact (h k).symm ▸ Nat.one_pos

theorem healthBit_lt (d : Device) : d.healthBit < 8 * 22 :=
  Nat.lt_of_lt_of_le (Nat.add_lt_add_left d.index_lt_width _) d.field.bits_end_le

theorem healthBit_inj {d d' : Device} (h : d.healthBit = d'.healthBit) : d = d' := by
  cases d <;> cases d' <;>
    simp only [healthBit_bkd, healthBit_bkhoA, healthBit_outServo, bkd.injEq, bkhoA.injEq, outServo.injEq,
      Fin.ext_iff, reduceCtorEq] at h ⊢ <;> omega

theorem healthBit_inj_iff {d d' : Device} : d.healthBit = d'.healthBit ↔ d = d' := ⟨healthBit_inj, congrArg healthBit⟩

end Device

def Counters.address (c : Counters) : Nat :=
  if c.currentBKD < inTotalBKD then c.currentDeviceInBKDx + c.currentBKD * deviceInBKD
  else if c.currentBKD = inTotalBKD then c.currentDeviceInBKHOA
  else c.currentDeviceInOUTSERVO

def Counters.Selects (c : Counters) (d : Device) : Prop := c.currentBKD = d.slot ∧ c.address = d.address

instance (c : Counters) (d : Device) : Decidable (c.Selects d) := inferInstanceAs (Decidable (_ ∧ _))

theorem Counters.Selects.unique {c : Counters} {d d' : Device} (h : c.Selects d) (h' : c.Selects d') : d = d' := by
  obtain ⟨hs, ha⟩ := h
  obtain ⟨hs', ha'⟩ := h'
  rw [hs] at hs'
  rw [ha] at ha'
  cases d <;> cases d' <;>
    simp only [Device.slot, Device.address, inTotalBKD, startAdrBKHOA, startAdrOUTSERVO, Device.bkd.injEq,
      Device.bkhoA.injEq, Device.outServo.injEq, Fin.ext_iff, reduceCtorEq] at hs' ha' ⊢ <;> omega

theorem Counters.Selects.eq_iff {c : Counters} {d d' : Device} (h : c.Selects d') : d = d' ↔ c.Selects d :=
  ⟨fun e => e ▸ h, fun h' => h'.unique h⟩

/-! ### Data entries -/

namespace Device

/-- The element of `YLSToYVData` in which the data of device `j` of BKD `b` begin. -/
def bkdElem (b j : Nat) : Elem YLSToYVField :=
  if j < 3 then ⟨.ykpAngle, [b, j, 0]⟩
  else if j < 6 then ⟨.yazData, [b, j - 3, 0]⟩
  else if j < 9 then ⟨.ypsMask, [b, j - 6]⟩
  else ⟨.ylk96Data, [b, j - 9, 0]⟩

/-- The bytes that a reply of device `j` of a BKD stores: two angles, received with the high byte first and
    stored with the low byte first, 24 bytes of data, or a mask. -/
def bkdPayload (j : Nat) (message : Memory) : List Byte :=
  if j < 3 then [message 1, message 0, message 3, message 2]
  else if j < 6 then (List.range 24).map message
  else if j < 9 then [message 0]
  else (List.range 24).map message

/-- Where the data of the device begin in the packet to YV. -/
def entry : Device → Nat
  | bkd b j => ylsToYVData.addr (bkdElem b j)
  | bkhoA u => ylsToYVData.addr ⟨.ypsMaskBKHOA, [u]⟩
  | outServo _ => 0

/-- The bytes that a reply of the device stores there. Of the BKHO-A only the YPS have data. -/
def payload : Device → Memory → List Byte
  | bkd _ j, message => bkdPayload j message
  | bkhoA u, message => if (u : Nat) < 3 then [message 0] else []
  | outServo _, _ => []

def size (d : Device) : Nat := (d.payload fun _ => 0).length

@[simp] theorem length_payload (d : Device) (message : Memory) : (d.payload message).length = d.size := by
  cases d with
  | bkd b j =>
    simp only [size, payload, bkdPayload]
    split_ifs <;> simp
  | bkhoA u =>
    simp only [size, payload]
    split_ifs <;> rfl
  | outServo k => rfl

/-- The size of what the packet to YV has for the device. A reply does not always fill it. -/
def extent : Device → Nat
  | bkd b j => ylsToYVData.subSize (bkdElem b j).field 2
  | bkhoA u => if (u : Nat) < 3 then ylsToYVData.subSize .ypsMaskBKHOA 1 else 0
  | outServo _ => 0

/-- Offset `o` of the packet belongs to the device. -/
def Entry (d : Device) (o : Nat) : Prop := d.entry ≤ o ∧ o < d.entry + d.extent

def Owns (d : Device) (o : Nat) : Prop := d.entry ≤ o ∧ o < d.entry + d.size

instance (d : Device) (o : Nat) : Decidable (d.Owns o) := inferInstanceAs (Decidable (_ ∧ _))

end Device

end YlsFirmware
