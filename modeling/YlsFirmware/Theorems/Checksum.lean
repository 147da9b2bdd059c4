import YlsFirmware.Lib.Remainder
import YlsFirmware.Theorems.Replies

/-! # The checksum against errors

The table of `Crc8` holds what eight shifts of the register of the generator x^8+x^5+x^4+1 make of each byte. A
frame is accepted exactly if the register is empty after its last byte, so an accepted frame with an error is
accepted again exactly if the error leaves the empty register empty. -/

namespace YlsFirmware
open Packed ShiftRegister

/-- The generator x^8+x^5+x^4+1, without its leading term. -/
def crc8Poly : Byte := 0x31

/-! ### The table -/

/-- A byte comes in bit by bit, the most significant bit first. -/
def crc8BitwiseStep (crc b : Byte) : Byte :=
  (List.range 8).foldl (fun crc k => shift crc8Poly crc (b.getMsbD k)) crc

def crc8Bitwise (pcBlock : Memory) (size : Nat) : Byte :=
  (List.range size).foldl (fun crc i => crc8BitwiseStep crc (pcBlock i)) 0xFF

theorem crc8Table_eq_map : crc8Table = (List.range 256).map fun i => advance crc8Poly (BitVec.ofNat 8 i) 8 := by
  decide +kernel

/-- Each entry of the table is eight shifts of its index. -/
theorem crc8Table_eq (b : Byte) : crc8Table[b.toNat]? = some (advance crc8Poly b 8) := by
  rw [crc8Table_eq_map, List.getElem?_map, List.getElem?_range b.isLt, Option.map_some, BitVec.ofNat_toNat,
    BitVec.setWidth_eq]

theorem crc8Step_eq (crc b : Byte) : crc8Step crc b = feed crc8Poly crc b.getMsbD 8 := by
  rw [crc8Step, List.getD_eq_getElem?_getD, crc8Table_eq, Option.getD_some, feed_word]

/-- The checksum from the table is the checksum bit by bit. -/
theorem crc8_eq_crc8Bitwise (pcBlock : Memory) (size : Nat) : crc8 pcBlock size = crc8Bitwise pcBlock size := by
  have hstep : ∀ crc b, crc8Step crc b = crc8BitwiseStep crc b := fun crc b => by
    rw [crc8Step_eq]
    rfl
  simp only [crc8, crc8Bitwise, hstep]

/-! ### The register of a frame -/

/-- Bit `p` of a frame in the order in which the checksum takes the bits. -/
def frameBit (message : Memory) (p : Nat) : Bool := (message (p / 8)).getMsbD (p % 8)

theorem frameBit_add (message : Memory) (i : Nat) {k : Nat} (h : k < 8) :
    frameBit message (8 * i + k) = (message i).getMsbD k := by
  rw [frameBit, Nat.mul_add_div (by decide), Nat.div_eq_of_lt h, Nat.add_zero, Nat.mul_add_mod, Nat.mod_eq_of_lt h]

/-- The next byte of a frame is one step through the table. -/
theorem feed_frameBit_succ (crc : Byte) (message : Memory) (i : Nat) :
    feed crc8Poly crc (frameBit message) (8 * (i + 1)) =
      crc8Step (feed crc8Poly crc (frameBit message) (8 * i)) (message i) := by
  rw [crc8Step_eq, Nat.mul_succ, feed_add]
  exact feed_congr fun k hk => frameBit_add message i hk

theorem crc8_eq_feed (message : Memory) (size : Nat) :
    crc8 message size = feed crc8Poly 0xFF (frameBit message) (8 * size) := by
  induction size with
  | zero => rfl
  | succ size ih => rw [crc8_succ, feed_frameBit_succ, ih]

theorem crc8Step_eq_zero_iff (crc b : Byte) : crc8Step crc b = 0#8 ↔ crc = b := by
  rw [crc8Step_eq, feed_word, advance_eq_zero_iff (by decide)]
  exact BitVec.xor_eq_zero_iff

/-- A frame ends in its checksum exactly if its last byte empties the register. -/
theorem accepts_iff {message : Memory} {size : Nat} :
    Accepts message size ↔ 1 < size ∧ feed crc8Poly 0xFF (frameBit message) (8 * size) = 0#8 := by
  refine and_congr_right fun h => ?_
  obtain ⟨i, rfl⟩ := Nat.exists_eq_add_of_lt h
  rw [show 1 + i + 1 - 1 = 1 + i by omega, ← crc8_eq_feed, crc8_succ, crc8Step_eq_zero_iff, eq_comm]

/-! ### Errors -/

/-- The frame with the bits of the error flipped. -/
def corrupt (f e : Memory) : Memory := fun i => f i ^^^ e i

/-- What the error makes of the empty register. -/
def syndrome (e : Memory) (size : Nat) : Byte := feed crc8Poly 0#8 (frameBit e) (8 * size)

theorem syndrome_succ (e : Memory) (i : Nat) : syndrome e (i + 1) = crc8Step (syndrome e i) (e i) :=
  feed_frameBit_succ 0#8 e i

theorem syndrome_of_zeros {e : Memory} {size : Nat} (h : ∀ i < size, e i = 0#8) : syndrome e size = 0#8 := by
  induction size with
  | zero => rfl
  | succ size ih =>
    rw [syndrome_succ, ih fun i hi => h i (Nat.lt_succ_of_lt hi), h size (Nat.lt_succ_self size)]
    rfl

/-- Bytes without errors do not hide an error before them. -/
theorem syndrome_add_eq_zero_iff {e : Memory} {m n : Nat} (h : ∀ i < m + n, m ≤ i → e i = 0#8) :
    syndrome e (m + n) = 0#8 ↔ syndrome e m = 0#8 := by
  induction n with
  | zero => rfl
  | succ n ih =>
    rw [← Nat.add_assoc, syndrome_succ, h (m + n) (by omega) (by omega), crc8Step_eq_zero_iff,
      ih fun i hi => h i (by omega)]

/-- Whether an accepted frame is still accepted depends on the error only. -/
theorem accepts_corrupt_iff {f e : Memory} {size : Nat} (hf : Accepts f size) :
    Accepts (corrupt f e) size ↔ syndrome e size = 0#8 := by
  have hbits : frameBit (corrupt f e) = fun p => frameBit f p ^^ frameBit e p :=
    funext fun p => BitVec.getMsbD_xor
  obtain ⟨h, hzero⟩ := accepts_iff.mp hf
  have hiff := feed_xor_eq_iff crc8Poly 0xFF (frameBit f) (frameBit e) (8 * size)
  rw [hzero] at hiff
  rw [accepts_iff, and_iff_right h, hbits, hiff, syndrome]

/-- A frame that is not accepted stores nothing. -/
theorem ylsToYVPack_of_not_accepts (s : State) {message : Memory} {size : Nat} (h : ¬ Accepts message size) :
    (checkMessageUART s message size).ylsToYVPack = s.ylsToYVPack := by
  have hnone : replyStores s.counters message size = [] := by simp [replyStores, handedTo, h]
  rw [checkMessageUART, hnone]
  funext k
  simp [State.ylsToYVPack_store]

/-- The places of the flipped bits in the order of the checksum. -/
def flips (e : Memory) (size : Nat) : Finset Nat := (Finset.range (8 * size)).filter fun p => frameBit e p = true

/-- The generator has an even number of terms, so it divides no error of odd weight. -/
theorem syndrome_ne_zero_of_odd {e : Memory} {size : Nat} (h : Odd (flips e size).card) : syndrome e size ≠ 0#8 :=
  feed_ne_zero_of_parity (by decide) ((parity_eq_true_iff _).mpr h)

/-- The register comes back to the generator every 127 steps. -/
theorem advance_crc8Poly_eq_iff (d : Nat) : advance crc8Poly crc8Poly d = crc8Poly ↔ 127 ∣ d := by
  have hround : ∀ q, advance crc8Poly crc8Poly (127 * q) = crc8Poly := by
    intro q
    induction q with
    | zero => rfl
    | succ q ih =>
      rw [Nat.mul_succ, advance_add, ih]
      decide +kernel
  have hfirst : ∀ k < 127, advance crc8Poly crc8Poly k = crc8Poly → k = 0 := by decide +kernel
  have hmod : advance crc8Poly crc8Poly d = advance crc8Poly crc8Poly (d % 127) := by
    have hadd : advance crc8Poly crc8Poly (127 * (d / 127) + d % 127) = _ := advance_add _ _
    rwa [Nat.div_add_mod, hround] at hadd
  rw [hmod, Nat.dvd_iff_mod_eq_zero]
  constructor
  · exact hfirst _ (Nat.mod_lt d (by decide))
  · intro h
    rw [h]
    rfl

/-- Two flipped bits go unseen exactly if their distance is a multiple of 127. -/
theorem syndrome_pair_eq_zero_iff {e : Memory} {size p d : Nat} (hd : 0 < d) (h : flips e size = {p, p + d}) :
    syndrome e size = 0#8 ↔ 127 ∣ d := by
  have hmem : ∀ i, i ∈ flips e size ↔ i = p ∨ i = p + d := fun i => by
    rw [h, Finset.mem_insert, Finset.mem_singleton]
  have hflips : ∀ i, i ∈ flips e size ↔ i < 8 * size ∧ frameBit e i = true := fun i => by
    rw [flips, Finset.mem_filter, Finset.mem_range]
  have hend : p + d < 8 * size := ((hflips _).mp ((hmem _).mpr (Or.inr rfl))).1
  have hbits : ∀ i < 8 * size, frameBit e i = true ↔ i = p ∨ i = p + d := fun i hi => by
    rw [← hmem, hflips, and_iff_right hi]
  rw [syndrome, feed_pair_eq_zero_iff (by decide) hd hend hbits, advance_crc8Poly_eq_iff]

/-- A corrupted frame changes nothing if an odd number of its bits is flipped, or two that are less than 127
    apart. -/
theorem ylsToYVPack_checkMessageUART_corrupt (s : State) {f e : Memory} {size : Nat} (hf : Accepts f size)
    (he : Odd (flips e size).card ∨ ∃ p q, p < q ∧ q < p + 127 ∧ flips e size = {p, q}) :
    (checkMessageUART s (corrupt f e) size).ylsToYVPack = s.ylsToYVPack := by
  refine ylsToYVPack_of_not_accepts s ?_
  rw [accepts_corrupt_iff hf]
  rcases he with hodd | ⟨p, q, hlt, hnear, hpair⟩
  · exact syndrome_ne_zero_of_odd hodd
  · obtain ⟨d, rfl⟩ := Nat.exists_eq_add_of_lt hlt
    rw [Nat.add_assoc] at hpair
    rw [syndrome_pair_eq_zero_iff (Nat.succ_pos d) hpair]
    exact Nat.not_dvd_of_pos_of_lt (Nat.succ_pos d) (by omega)

/-- The first and the last bit of byte 0 are flipped. -/
theorem ylsToYVPack_checkMessageUART_pair :
    (checkMessageUART (after [.tick]) (corrupt (sealFrame (fun _ => 0#8) 32) (Function.update (fun _ => 0#8) 0 0x81))
      32).ylsToYVPack = (after [.tick]).ylsToYVPack :=
  ylsToYVPack_checkMessageUART_corrupt (after [.tick]) (accepts_sealFrame _ (by decide))
    (Or.inr ⟨0, 7, by decide, by decide, by decide +kernel⟩)

/-! ### Polynomials -/

section Polynomials
open Polynomial

theorem genPoly_crc8Poly : genPoly crc8Poly = X ^ 8 + X ^ 5 + X ^ 4 + 1 := by
  have hword : wordPoly crc8Poly = X ^ 5 + X ^ 4 + 1 := by
    simp [wordPoly, crc8Poly, coef, Finset.sum_range_succ]
    ring
  rw [genPoly, hword]
  ring

/-- The checksum is the remainder by the generator of the bytes with a zero byte behind them and 0xFF added to the
    first of them. -/
theorem wordPoly_crc8 (message : Memory) (size : Nat) :
    wordPoly (crc8 message size) =
      (X ^ (8 * size) * wordPoly (0xFF : Byte) + X ^ 8 * streamPoly (frameBit message) (8 * size)) %ₘ
        (X ^ 8 + X ^ 5 + X ^ 4 + 1) := by
  rw [crc8_eq_feed, wordPoly_feed, genPoly_crc8Poly]

/-- An accepted frame with an error is accepted again exactly if the generator divides the error. -/
theorem accepts_corrupt_iff_dvd {f e : Memory} {size : Nat} (hf : Accepts f size) :
    Accepts (corrupt f e) size ↔ X ^ 8 + X ^ 5 + X ^ 4 + 1 ∣ streamPoly (frameBit e) (8 * size) := by
  rw [accepts_corrupt_iff hf, syndrome, feed_zero_eq_zero_iff_dvd (by decide), genPoly_crc8Poly]

end Polynomials

end YlsFirmware
