import YlsFirmware.Lib.Memory
import YlsFirmware.Lib.Layout

/-! # protocol.h

The packed structs on the two sides of the YLS: the 20-byte command frame to a bus device, the 80-byte
packet from YV and the 8192-byte packet to YV, whose head is a map of health bits (the build defines
`MAP_HEALFS`, so the map is padded to 30 bytes). All multi-byte members are little-endian. -/

namespace YlsFirmware
open Packed

def sizeHealthAbonent : Nat := 30
def sizeMessageYLS : Nat := 8192
def sizeMessageYV : Nat := 80

def usartBufferTxSizeYLS : Nat := 20
def usartBufferTxSizeYKP : Nat := 32
def usartBufferTxSizeYPS : Nat := 32
def usartBufferTxSizeYAZ : Nat := 32
def usartBufferTxSizeYLK96 : Nat := 32
def usartBufferTxSizeYLK32_3 : Nat := 32
def usartBufferTxSizeYVP : Nat := 32
def usartBufferTxSizeYTP : Nat := 32
def usartBufferTxSizeYTM : Nat := 32
def usartBufferTxSizeYGR : Nat := 32

/-! ### YLSToBKDPacket -/

inductive YLSToBKDField where
  | adress | command | ypsMask | ykpAngle1 | ykpAngle2 | reserv1 | src
  deriving DecidableEq

/-- The command frame from the YLS to a bus device. -/
def ylsToBKDPacket : Struct YLSToBKDField where
  members := [.adress, .command, .ypsMask, .ykpAngle1, .ykpAngle2, .reserv1, .src]
  dims
    | .reserv1 => [12]
    | _ => []
  unit
    | .ykpAngle1 | .ykpAngle2 => 2
    | _ => 1

/-! ### YVToYLSPacket -/

def yvCommandTest1 : Byte := 0x01
def yvCommandTest2 : Byte := 0x02

inductive YVToYLSField where
  | ypsMaskBKHOA | ypsMask | ykpAngle | outYkpAngle | command | counter
  deriving DecidableEq

def yvToYLSData : Struct YVToYLSField where
  members := [.ypsMaskBKHOA, .ypsMask, .ykpAngle, .outYkpAngle, .command, .counter]
  dims
    | .ypsMask => [12]
    | .ykpAngle => [12, 2]
    | .outYkpAngle => [8]
    | _ => []
  unit
    | .ykpAngle | .outYkpAngle | .counter => 2
    | _ => 1

/-! ### YLSToYVPacket -/

/-- The bit-fields of `health_bit_map`, in declaration order. -/
inductive HealthField where
  | ykpPoc1 | ykpPoc2 | ykpPoc3 | yazPoc1 | yazPoc2 | yazPoc3
  | ypsPoc1 | ypsPoc2 | ypsPoc3 | ylk96Poc1 | ylk96Poc2 | ylk96Poc3
  | ypsBkhoAPoc1 | ypsBkhoAPoc2 | ypsBkhoAPoc3 | ytp1BkhoAPoc1 | ytp1BkhoAPoc2 | ytp1BkhoAPoc3
  | ytp2BkhoAPoc1 | ytp2BkhoAPoc2 | ytp2BkhoAPoc3 | ytm1BkhoAPoc1 | ytm1BkhoAPoc2 | ytm1BkhoAPoc3
  | ytm2BkhoAPoc1 | ytm2BkhoAPoc2 | ytm2BkhoAPoc3 | ygrBkhoAPoc1 | ygrBkhoAPoc2 | ygrBkhoAPoc3
  | ylk32_3BkhoAPoc1 | ylk32_3BkhoAPoc2 | ylk32_3BkhoAPoc3 | yvpBkhoAPoc1 | yvpBkhoAPoc2 | yvpBkhoAPoc3
  | outServo8 | outServo7 | outServo6 | outServo5 | outServo4 | outServo3 | outServo2 | outServo1
  deriving DecidableEq

def HealthField.width : HealthField → Nat
  | .ykpPoc1 | .ykpPoc2 | .ykpPoc3 | .yazPoc1 | .yazPoc2 | .yazPoc3
  | .ypsPoc1 | .ypsPoc2 | .ypsPoc3 | .ylk96Poc1 | .ylk96Poc2 | .ylk96Poc3 => 12
  | _ => 1

def healthBitMap : List HealthField :=
  [.ykpPoc1, .ykpPoc2, .ykpPoc3, .yazPoc1, .yazPoc2, .yazPoc3,
   .ypsPoc1, .ypsPoc2, .ypsPoc3, .ylk96Poc1, .ylk96Poc2, .ylk96Poc3,
   .ypsBkhoAPoc1, .ypsBkhoAPoc2, .ypsBkhoAPoc3, .ytp1BkhoAPoc1, .ytp1BkhoAPoc2, .ytp1BkhoAPoc3,
   .ytp2BkhoAPoc1, .ytp2BkhoAPoc2, .ytp2BkhoAPoc3, .ytm1BkhoAPoc1, .ytm1BkhoAPoc2, .ytm1BkhoAPoc3,
   .ytm2BkhoAPoc1, .ytm2BkhoAPoc2, .ytm2BkhoAPoc3, .ygrBkhoAPoc1, .ygrBkhoAPoc2, .ygrBkhoAPoc3,
   .ylk32_3BkhoAPoc1, .ylk32_3BkhoAPoc2, .ylk32_3BkhoAPoc3, .yvpBkhoAPoc1, .yvpBkhoAPoc2, .yvpBkhoAPoc3,
   .outServo8, .outServo7, .outServo6, .outServo5, .outServo4, .outServo3, .outServo2, .outServo1]

theorem total_healthBitMap : total HealthField.width healthBitMap = 8 * 22 := rfl

inductive YLSToYVField where
  | healthAbonent | ypsMaskBKHOA | ypsMask | ykpAngle | outYkpAngle | yazData | yvpData | ylk32_3Data | ylk96Data
  deriving DecidableEq

def ylsToYVData : Struct YLSToYVField where
  members := [.healthAbonent, .ypsMaskBKHOA, .ypsMask, .ykpAngle, .outYkpAngle, .yazData, .yvpData, .ylk32_3Data,
    .ylk96Data]
  dims
    | .healthAbonent => [sizeHealthAbonent]
    | .ypsMaskBKHOA => [3]
    | .ypsMask => [12, 3]
    | .ykpAngle => [12, 3, 2]
    | .outYkpAngle => [8]
    | .yazData => [12, 3, 24]
    | .yvpData => [2, 3, 64]
    | .ylk32_3Data => [100]
    | .ylk96Data => [12, 3, 30]
  unit
    | .ykpAngle | .outYkpAngle => 2
    | _ => 1

theorem addr_ypsMaskBKHOA (p : Nat) : ylsToYVData.addr ⟨.ypsMaskBKHOA, [p]⟩ = 30 + p := by
  have h : ylsToYVData.addr ⟨.ypsMaskBKHOA, [p]⟩ = 30 + (p * 1 + 0) * 1 := rfl
  omega

theorem addr_ypsMask (b p : Nat) : ylsToYVData.addr ⟨.ypsMask, [b, p]⟩ = 33 + 3 * b + p := by
  have h : ylsToYVData.addr ⟨.ypsMask, [b, p]⟩ = 33 + (b * 3 + (p * 1 + 0)) * 1 := rfl
  omega

theorem addr_ykpAngle (b p i : Nat) : ylsToYVData.addr ⟨.ykpAngle, [b, p, i]⟩ = 69 + 12 * b + 4 * p + 2 * i := by
  have h : ylsToYVData.addr ⟨.ykpAngle, [b, p, i]⟩ = 69 + (b * 6 + (p * 2 + (i * 1 + 0))) * 2 := rfl
  omega

theorem addr_yazData (b p i : Nat) : ylsToYVData.addr ⟨.yazData, [b, p, i]⟩ = 229 + 72 * b + 24 * p + i := by
  have h : ylsToYVData.addr ⟨.yazData, [b, p, i]⟩ = 229 + (b * 72 + (p * 24 + (i * 1 + 0))) * 1 := rfl
  omega

theorem addr_ylk96Data (b p i : Nat) : ylsToYVData.addr ⟨.ylk96Data, [b, p, i]⟩ = 1577 + 90 * b + 30 * p + i := by
  have h : ylsToYVData.addr ⟨.ylk96Data, [b, p, i]⟩ = 1577 + (b * 90 + (p * 30 + (i * 1 + 0))) * 1 := rfl
  omega

def HealthField.bits (f : HealthField) : BitField where
  offset := 8 * offset ylsToYVData.size ylsToYVData.members .healthAbonent + offset HealthField.width healthBitMap f
  width := f.width

@[simp] theorem offset_healthAbonent : offset ylsToYVData.size ylsToYVData.members .healthAbonent = 0 := rfl

theorem HealthField.mem_healthBitMap (f : HealthField) : f ∈ healthBitMap := by
  cases f <;> decide

theorem HealthField.bits_end_le (f : HealthField) : f.bits.offset + f.bits.width ≤ 8 * 22 := by
  have h := offset_add_size_le HealthField.width f.mem_healthBitMap
  rw [total_healthBitMap] at h
  simpa only [bits, offset_healthAbonent, Nat.mul_zero, Nat.zero_add] using h

theorem HealthField.width_le (f : HealthField) : f.bits.width ≤ 32 := by
  cases f <;> decide

end YlsFirmware
