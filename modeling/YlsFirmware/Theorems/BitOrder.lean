import YlsFirmware.Theorems.Checksum
import YlsFirmware.Theorems.Health

/-! # Bursts on the line

The line sends the least significant bit of each byte first, the checksum takes the most significant bit first. In
the order of the checksum no burst of 8 bits goes unseen. On the line a burst that runs over the end of a byte is
torn apart for the checksum, and seven pairs of bytes cancel. -/

namespace YlsFirmware
open Packed ShiftRegister

/-- The argument `msbf` of `ConfigUsart`: which bit of a byte is sent first. -/
inductive Msbf where
  | lsb | msb
  deriving DecidableEq

/-- `main` configures USART0 and USART5 with `USART_MSBF_LSB`. -/
def lineMsbf : Msbf := .lsb

/-- Bit `p` of a frame in the order in which the bits are sent. -/
def Msbf.bit : Msbf → Memory → Nat → Bool
  | lsb, message, p => (message (p / 8)).getLsbD (p % 8)
  | msb, message, p => (message (p / 8)).getMsbD (p % 8)

/-- An error whose flipped bits are all among 8 that are sent one after the other. -/
structure ShortBurst (o : Msbf) (e : Memory) (size : Nat) : Prop where
  nonzero : ∃ p < 8 * size, o.bit e p = true
  within : ∃ a, ∀ p < 8 * size, o.bit e p = true → a ≤ p ∧ p < a + 8

/-- If the line sent the most significant bit first, no frame with a short burst would be accepted. -/
theorem not_accepts_of_msb {f e : Memory} {size : Nat} (hf : Accepts f size) (he : ShortBurst .msb e size) :
    ¬ Accepts (corrupt f e) size := by
  obtain ⟨a, ha⟩ := he.within
  rw [accepts_corrupt_iff hf]
  exact feed_burst_ne_zero (by decide) ha he.nonzero

theorem ShortBurst.exists_byte {o : Msbf} {e : Memory} {size : Nat} (he : ShortBurst o e size) :
    ∃ i < size, e i ≠ 0#8 := by
  obtain ⟨p, hp, hset⟩ := he.nonzero
  refine ⟨p / 8, by omega, fun hzero => ?_⟩
  cases o <;> simp [Msbf.bit, hzero] at hset

/-! ### Bursts over the end of a byte -/

/-- Of the two bytes, the first has only bits from `s` on and the second only bits below `s`. -/
def Straddles (s : Nat) (b b' : Byte) : Prop :=
  (∀ j < s, b.getLsbD j = false) ∧ ∀ j < 8, s ≤ j → b'.getLsbD j = false

instance (s : Nat) (b b' : Byte) : Decidable (Straddles s b b') := inferInstanceAs (Decidable (_ ∧ _))

/-- The error begins in byte `k`, at its bit `s`, and ends in byte `k + 1` at the latest, before its bit `s`. -/
structure BeginsAt (e : Memory) (size k s : Nat) : Prop where
  bit_lt : s < 8
  byte_lt : k < size
  outside : ∀ i < size, i ≠ k → i ≠ k + 1 → e i = 0#8
  straddles : k + 1 < size → Straddles s (e k) (e (k + 1))

theorem ShortBurst.beginsAt {e : Memory} {size : Nat} (he : ShortBurst .lsb e size) :
    ∃ k s, BeginsAt e size k s := by
  obtain ⟨a, ha⟩ := he.within
  obtain ⟨p, hp, hset⟩ := he.nonzero
  have hlo : a ≤ p := (ha p hp hset).1
  have hbit : ∀ i j, i < size → j < 8 → ¬ (a ≤ 8 * i + j ∧ 8 * i + j < a + 8) → (e i).getLsbD j = false := by
    intro i j hi hj hout
    by_contra htrue
    refine hout (ha (8 * i + j) (by omega) ?_)
    rw [Msbf.bit, Nat.mul_add_div (by decide), Nat.div_eq_of_lt hj, Nat.add_zero, Nat.mul_add_mod, Nat.mod_eq_of_lt hj]
    exact Bool.eq_true_of_not_eq_false htrue
  refine ⟨a / 8, a % 8, ⟨Nat.mod_lt _ (by decide), by omega, fun i hi hne hne' => ?_, fun hk => ⟨?_, ?_⟩⟩⟩
  · exact BitVec.eq_of_getLsbD_eq fun j hj => by rw [hbit i j hi hj (by omega), BitVec.getLsbD_zero]
  · exact fun j hj => hbit _ j (by omega) (by omega) (by omega)
  · exact fun j hj hs => hbit _ j hk hj (by omega)

section BeginsAt
variable {e : Memory} {size k s : Nat} (h : BeginsAt e size k s)
include h

theorem BeginsAt.next_ne_zero (hsome : ∃ i < size, e i ≠ 0#8) (hk : e k = 0#8) :
    k + 1 < size ∧ e (k + 1) ≠ 0#8 := by
  obtain ⟨i, hi, hne⟩ := hsome
  have hik : i ≠ k := fun hik => hne (hik ▸ hk)
  obtain rfl : i = k + 1 := by
    by_contra hik'
    exact hne (h.outside i hi hik hik')
  exact ⟨hi, hne⟩

/-- The error goes unseen exactly if the byte that it ends in is the table entry of the byte that it begins in. -/
theorem BeginsAt.syndrome_eq_zero_iff :
    syndrome e size = 0#8 ↔ if k + 1 < size then crc8Step 0#8 (e k) = e (k + 1) else e k = 0#8 := by
  have hlt := h.byte_lt
  have hbefore : syndrome e k = 0#8 := syndrome_of_zeros fun i hi => h.outside i (by omega) (by omega) (by omega)
  split_ifs with hk
  · obtain ⟨n, rfl⟩ := Nat.exists_eq_add_of_le (Nat.succ_le_of_lt hk)
    rw [syndrome_add_eq_zero_iff fun i hi hge => h.outside i hi (by omega) (by omega), Nat.succ_eq_add_one,
      syndrome_succ, syndrome_succ, hbefore, crc8Step_eq_zero_iff]
  · obtain rfl : size = k + 1 := by omega
    rw [syndrome_succ, hbefore, crc8Step_eq_zero_iff, eq_comm]

end BeginsAt

/-! ### The bursts that go unseen -/

/-- The bytes in which the unseen bursts begin and end. -/
def unseen : List (Byte × Byte) :=
  [(0x34, 0x01), (0x40, 0x3D), (0x5C, 0x03), (0x68, 0x02), (0x80, 0x7A), (0xB8, 0x06), (0xD0, 0x04)]

instance (x : Byte × Byte) : Decidable (x ∈ unseen) := inferInstance

theorem mem_unseen {b : Byte} (hb : b ≠ 0#8) {s : Nat} (hs : s < 8) (h : Straddles s b (crc8Step 0#8 b)) :
    (b, crc8Step 0#8 b) ∈ unseen := by
  have hall : ∀ x ∈ crc8Table.zipIdx, x.2 ≠ 0 → ∀ s < 8, Straddles s (BitVec.ofNat 8 x.2) x.1 →
      (BitVec.ofNat 8 x.2, x.1) ∈ unseen := by decide +kernel
  have hentry : (crc8Step 0#8 b, b.toNat) ∈ crc8Table.zipIdx := by
    rw [List.mk_mem_zipIdx_iff_getElem?, crc8Table_eq, crc8Step_eq, feed_word, BitVec.zero_xor]
  have hne : b.toNat ≠ 0 := fun hzero => hb (BitVec.eq_of_toNat_eq hzero)
  have hmem := hall _ hentry hne s hs
  rw [BitVec.ofNat_toNat, BitVec.setWidth_eq] at hmem
  exact hmem h

theorem unseen_spec {x : Byte × Byte} (hx : x ∈ unseen) : x.1 ≠ 0#8 ∧ x.2 ≠ 0#8 ∧ crc8Step 0#8 x.1 = x.2 := by
  have hall : unseen.all (fun x => decide (x.1 ≠ 0#8 ∧ x.2 ≠ 0#8 ∧ crc8Step 0#8 x.1 = x.2)) = true := by decide
  exact of_decide_eq_true (List.all_eq_true.mp hall x hx)

/-- Two adjacent bytes of the error are one of the seven pairs. -/
def Unseen (e : Memory) (size : Nat) : Prop := ∃ k, k + 1 < size ∧ (e k, e (k + 1)) ∈ unseen

theorem syndrome_eq_zero_iff_unseen {e : Memory} {size : Nat} (he : ShortBurst .lsb e size) :
    syndrome e size = 0#8 ↔ Unseen e size := by
  obtain ⟨k, s, h⟩ := he.beginsAt
  rw [h.syndrome_eq_zero_iff]
  constructor
  · intro hzero
    split_ifs at hzero with hk
    · have hne : e k ≠ 0#8 := fun hek => by
        rw [hek] at hzero
        exact (h.next_ne_zero he.exists_byte hek).2 hzero.symm
      have hmem := mem_unseen hne h.bit_lt (hzero ▸ h.straddles hk)
      exact ⟨k, hk, hzero ▸ hmem⟩
    · exact absurd (h.next_ne_zero he.exists_byte hzero).1 hk
  · rintro ⟨i, hi, hmem⟩
    obtain ⟨hne, hne', hstep⟩ := unseen_spec hmem
    -- Both bytes of the pair lie in the two of the burst, so they are these two.
    obtain rfl : i = k := by
      by_contra hik
      have hik' : i = k + 1 := by
        by_contra hik'
        exact hne (h.outside i (by omega) hik hik')
      exact hne' (h.outside (i + 1) hi (by omega) (by omega))
    rw [if_pos hi]
    exact hstep

theorem accepts_corrupt_burst_iff {f e : Memory} {size : Nat} (hf : Accepts f size)
    (he : ShortBurst lineMsbf e size) : Accepts (corrupt f e) size ↔ Unseen e size := by
  rw [accepts_corrupt_iff hf, syndrome_eq_zero_iff_unseen he]

/-- A frame that a burst on the line has corrupted is accepted exactly if the burst is one of the seven pairs of
    bytes, and otherwise changes nothing. -/
theorem ylsToYVPack_checkMessageUART_burst (s : State) {f e : Memory} {size : Nat} (hf : Accepts f size)
    (he : ShortBurst lineMsbf e size) :
    (Accepts (corrupt f e) size ↔ Unseen e size) ∧
      (¬ Unseen e size → (checkMessageUART s (corrupt f e) size).ylsToYVPack = s.ylsToYVPack) :=
  ⟨accepts_corrupt_burst_iff hf he,
    fun hun => ylsToYVPack_of_not_accepts s (mt (accepts_corrupt_burst_iff hf he).mp hun)⟩

/-- Bits 2, 4 and 5 of byte 0 and bit 0 of byte 1. -/
def tornBurst : Memory := ofBytes [0x34, 0x01]

theorem shortBurst_tornBurst : ShortBurst lineMsbf tornBurst 32 := ⟨⟨2, by decide, by decide⟩, 2, by decide +kernel⟩

/-- BKD 1 is polled for the first time, and the reply of its device 1 is corrupted on the line and stored. -/
theorem ylsToYVPack_tornBurst_ne :
    Accepts (sealFrame (fun _ => 0#8) 32) 32 ∧ ShortBurst lineMsbf tornBurst 32 ∧
      (checkMessageUART (after [.tick]) (corrupt (sealFrame (fun _ => 0#8) 32) tornBurst) 32).ylsToYVPack ≠
        (after [.tick]).ylsToYVPack := by
  have hacc : Accepts (sealFrame (fun _ => 0#8) 32) 32 := accepts_sealFrame _ (by decide)
  refine ⟨hacc, shortBurst_tornBurst, fun hkept => ?_⟩
  have hunseen : Unseen tornBurst 32 := ⟨0, by decide, by decide⟩
  have hans : Answers (corrupt (sealFrame (fun _ => 0#8) 32) tornBurst) 32 :=
    ⟨(accepts_corrupt_burst_iff hacc shortBurst_tornBurst).mpr hunseen, rfl⟩
  have hslot : (after [.tick]).counters.currentBKD ≠ 13 := by decide
  have hsel : (after [.tick]).counters.Selects (.bkd 1 0) := by decide
  have hclear : bit ((after [.tick]).ylsToYVPack (after [.tick]).currentTickTxEth) (Device.bkd 1 0).healthBit = false :=
    bit_first_tick _ _
  have hset := bit_step (inRange_after [.tick]) (.frame (corrupt (sealFrame (fun _ => 0#8) 32) tornBurst) 32)
    (after [.tick]).currentTickTxEth (.bkd 1 0)
  change bit ((checkMessageUART _ _ _).ylsToYVPack _) _ = _ at hset
  rw [hkept] at hset
  simp only [hclear, hans, hslot, hsel, ne_eq, not_false_eq_true, and_self] at hset
  exact absurd hset (by decide)

/-- A burst that begins in byte 0 and ends in byte 1, and is seen. -/
theorem ylsToYVPack_checkMessageUART_seen :
    (checkMessageUART (after [.tick]) (corrupt (sealFrame (fun _ => 0#8) 32) (ofBytes [0x80, 0x01])) 32).ylsToYVPack =
      (after [.tick]).ylsToYVPack := by
  have hseen : ∀ k < 31, (ofBytes [0x80, 0x01] k, ofBytes [0x80, 0x01] (k + 1)) ∉ unseen := by decide +kernel
  have hburst : ShortBurst lineMsbf (ofBytes [0x80, 0x01]) 32 := ⟨⟨7, by decide, by decide⟩, 7, by decide +kernel⟩
  exact (ylsToYVPack_checkMessageUART_burst (after [.tick]) (accepts_sealFrame _ (by decide)) hburst).2
    fun ⟨k, hk, hmem⟩ => hseen k (Nat.lt_of_succ_lt_succ hk) hmem

end YlsFirmware
