import Mathlib.Algebra.Ring.Parity
import Mathlib.Data.Finset.Card
import YlsFirmware.Lib.Memory

/-! # Shift registers with feedback

The register of a cyclic redundancy check, of any width and with any generator. With each bit it moves up by
one, and the generator is added to it when the bit that leaves differs from the bit that comes in. All this is
linear in the register and the stream together, so what an error does to the register depends on the error only:
two streams give the same register exactly if their difference leaves the empty register empty. -/

namespace ShiftRegister
open Packed

variable {w : Nat}

/-- One bit comes in at the top. The generator is given without its leading term. -/
def shift (poly r : BitVec w) (b : Bool) : BitVec w := (r <<< 1) ^^^ if r.msb ^^ b then poly else 0#w

/-- The register after the first `n` bits of a stream. -/
def feed (poly r : BitVec w) (bits : Nat → Bool) : Nat → BitVec w
  | 0 => r
  | n + 1 => shift poly (feed poly r bits n) (bits n)

/-- The register after `n` zero bits. -/
def advance (poly r : BitVec w) (n : Nat) : BitVec w := feed poly r (fun _ => false) n

variable {poly r : BitVec w} {bits e : Nat → Bool}

theorem feed_congr {n : Nat} (h : ∀ i < n, bits i = e i) : feed poly r bits n = feed poly r e n := by
  induction n with
  | zero => rfl
  | succ n ih => rw [feed, feed, ih fun i hi => h i (Nat.lt_succ_of_lt hi), h n (Nat.lt_succ_self n)]

theorem feed_add (m n : Nat) :
    feed poly r bits (m + n) = feed poly (feed poly r bits m) (fun i => bits (m + i)) n := by
  induction n with
  | zero => rfl
  | succ n ih => rw [← Nat.add_assoc, feed, feed, ih]

theorem advance_add (m n : Nat) : advance poly r (m + n) = advance poly (advance poly r m) n := feed_add m n

/-- Once only zeros are left of the stream, the register advances. -/
theorem feed_of_zeros {m : Nat} (h : ∀ i, m ≤ i → bits i = false) (n : Nat) :
    feed poly r bits (m + n) = advance poly (feed poly r bits m) n := by
  rw [feed_add]
  exact feed_congr fun i _ => h _ (Nat.le_add_right m i)

/-! ### Linearity -/

section Linear
variable (poly r : BitVec w) (r' : BitVec w) (bits e : Nat → Bool) (n : Nat)

theorem shift_xor (b b' : Bool) : shift poly (r ^^^ r') (b ^^ b') = shift poly r b ^^^ shift poly r' b' := by
  have hpoly : (if (r ^^^ r').msb ^^ (b ^^ b') then poly else 0#w) =
      (if r.msb ^^ b then poly else 0#w) ^^^ if r'.msb ^^ b' then poly else 0#w := by
    rw [BitVec.msb_xor]
    cases r.msb <;> cases r'.msb <;> cases b <;> cases b' <;> simp
  rw [shift, shift, shift, hpoly, BitVec.shiftLeft_xor_distrib]
  ac_rfl

theorem feed_xor :
    feed poly (r ^^^ r') (fun i => bits i ^^ e i) n = feed poly r bits n ^^^ feed poly r' e n := by
  induction n with
  | zero => rfl
  | succ n ih => rw [feed, feed, feed, ih, shift_xor]

theorem advance_xor : advance poly (r ^^^ r') n = advance poly r n ^^^ advance poly r' n :=
  feed_xor poly r r' (fun _ => false) (fun _ => false) n

theorem advance_zero : advance poly 0#w n = 0#w := by
  have h := advance_xor poly 0#w 0#w n
  rwa [BitVec.xor_self, BitVec.xor_self] at h

/-- An error goes unseen exactly if it leaves the empty register empty. -/
theorem feed_xor_eq_iff :
    feed poly r (fun i => bits i ^^ e i) n = feed poly r bits n ↔ feed poly 0#w e n = 0#w := by
  have h := feed_xor poly r 0#w bits e n
  rw [BitVec.xor_zero] at h
  rw [h]
  constructor
  · intro heq
    have hself := BitVec.xor_eq_zero_iff.mpr heq
    rwa [BitVec.xor_comm (feed poly r bits n), BitVec.xor_assoc, BitVec.xor_self, BitVec.xor_zero] at hself
  · intro hzero
    rw [hzero, BitVec.xor_zero]

end Linear

/-! ### Words -/

/-- A word in the register leaves it without feedback while its own bits come in. -/
theorem feed_self (b : BitVec w) (n : Nat) : feed poly b b.getMsbD n = b <<< n := by
  induction n with
  | zero => rw [feed, BitVec.shiftLeft_zero]
  | succ n ih =>
    rw [feed, ih, shift, BitVec.msb_eq_getMsbD_zero, BitVec.getMsbD_shiftLeft, Nat.zero_add, Bool.xor_self,
      BitVec.shiftLeft_add]
    exact BitVec.xor_zero

/-- Feeding a word of the width of the register is adding it and advancing. -/
theorem feed_word (r b : BitVec w) : feed poly r b.getMsbD w = advance poly (r ^^^ b) w := by
  have h := feed_xor poly (r ^^^ b) b (fun _ => false) b.getMsbD w
  rw [feed_self, BitVec.shiftLeft_eq_zero (Nat.le_refl w), BitVec.xor_zero, BitVec.xor_assoc, BitVec.xor_self,
    BitVec.xor_zero] at h
  rw [advance, ← h]
  exact feed_congr fun i _ => (Bool.false_xor _).symm

/-- Zeros never empty the register if the generator has a constant term. -/
theorem shift_false_eq_zero_iff (hpoly : poly.getLsbD 0 = true) : shift poly r false = 0#w ↔ r = 0#w := by
  constructor
  · intro h
    cases hm : r.msb with
    | false =>
      have hleft : r <<< 1 = 0#w := by
        rw [← h, shift, hm]
        exact BitVec.xor_zero.symm
      apply BitVec.eq_of_getMsbD_eq
      intro i _
      rcases Nat.eq_zero_or_pos i with rfl | hpos
      · rw [← BitVec.msb_eq_getMsbD_zero, hm, BitVec.getMsbD_zero]
      · obtain ⟨k, rfl⟩ := Nat.exists_eq_add_of_le' hpos
        have hk := congrArg (fun v => BitVec.getMsbD v k) hleft
        simpa using hk
    | true =>
      have hbit : (shift poly r false).getLsbD 0 = true := by
        rw [shift, hm, BitVec.getLsbD_xor, BitVec.getLsbD_shiftLeft]
        simpa using hpoly
      rw [h] at hbit
      simp at hbit
  · rintro rfl
    simp [shift]

theorem advance_eq_zero_iff (hpoly : poly.getLsbD 0 = true) (n : Nat) : advance poly r n = 0#w ↔ r = 0#w := by
  induction n with
  | zero => rfl
  | succ n ih =>
    show shift poly (advance poly r n) false = 0#w ↔ _
    rw [shift_false_eq_zero_iff hpoly, ih]

/-! ### Bursts -/

/-- The first `w` bits of a stream as a word. -/
def word (w : Nat) (bits : Nat → Bool) : BitVec w := ofBits w fun i => bits (w - 1 - i)

theorem getMsbD_word {i : Nat} (h : i < w) : (word w bits).getMsbD i = bits i := by
  rw [BitVec.getMsbD_eq_getLsbD, word, getLsbD_ofBits, Nat.sub_sub_self (by omega)]
  simp [h, show w - 1 - i < w by omega]

/-- After zeros the empty register takes in a word and advances. -/
theorem feed_zeros_word {a : Nat} (h : ∀ i < a, bits i = false) :
    feed poly 0#w bits (a + w) = advance poly (word w fun i => bits (a + i)) w := by
  have hbefore : feed poly 0#w bits a = 0#w := by
    rw [feed_congr h]
    exact advance_zero poly a
  have hword : feed poly 0#w (word w fun i => bits (a + i)).getMsbD w = advance poly _ w := feed_word _ _
  rw [BitVec.zero_xor] at hword
  rw [feed_add, hbefore, ← hword]
  exact feed_congr fun i hi => by rw [getMsbD_word hi]

/-- A burst that is not longer than the register never leaves it empty. -/
theorem feed_burst_ne_zero (hpoly : poly.getLsbD 0 = true) {a n : Nat}
    (hin : ∀ i < n, e i = true → a ≤ i ∧ i < a + w) (hsome : ∃ i < n, e i = true) : feed poly 0#w e n ≠ 0#w := by
  intro hzero
  -- With nothing behind the frame, the stream may be read to the end of the frame and to that of the burst.
  let cut : Nat → Bool := fun i => decide (i < n) && e i
  have hcut : ∀ i, cut i = true → i < n ∧ e i = true := fun i hi => by simpa [cut] using hi
  have hframe : feed poly 0#w cut (n + (a + w)) = 0#w := by
    have hn : feed poly 0#w cut n = feed poly 0#w e n := feed_congr fun i hi => by simp [cut, hi]
    rw [feed_of_zeros (fun i hi => by simp [cut, show ¬ i < n by omega]), hn, hzero, advance_zero]
  have hout : ∀ i, ¬ (a ≤ i ∧ i < a + w) → cut i = false := fun i hi => by
    by_contra htrue
    obtain ⟨hlt, hset⟩ := hcut i (Bool.eq_true_of_not_eq_false htrue)
    exact hi (hin i hlt hset)
  rw [Nat.add_comm, feed_of_zeros (fun i hi => hout i (by omega)), feed_zeros_word fun i hi => hout i (by omega),
    advance_eq_zero_iff hpoly, advance_eq_zero_iff hpoly] at hframe
  obtain ⟨i, hi, hset⟩ := hsome
  obtain ⟨hlo, hhi⟩ := hin i hi hset
  obtain ⟨k, rfl⟩ := Nat.exists_eq_add_of_le hlo
  have hk : (word w fun i => cut (a + i)).getMsbD k = cut (a + k) := getMsbD_word (by omega)
  rw [hframe, BitVec.getMsbD_zero] at hk
  simp [cut, hi, hset] at hk

/-! ### Two errors -/

/-- What a single set bit makes of the empty register. -/
theorem feed_single (p n : Nat) : feed poly 0#w (fun i => decide (i = p)) (p + 1 + n) = advance poly poly n := by
  have hbefore : feed poly 0#w (fun i => decide (i = p)) p = 0#w := by
    rw [feed_congr fun i hi => decide_eq_false (Nat.ne_of_lt hi)]
    exact advance_zero poly p
  rw [feed_of_zeros fun i hi => decide_eq_false (Nat.ne_of_gt hi), feed, hbefore]
  simp [shift]

/-- Two errors cancel exactly if the generator comes back to itself over the distance between them. -/
theorem feed_pair_eq_zero_iff (hpoly : poly.getLsbD 0 = true) {p d n : Nat} (hd : 0 < d) (hn : p + d < n)
    (he : ∀ i < n, e i = true ↔ i = p ∨ i = p + d) : feed poly 0#w e n = 0#w ↔ advance poly poly d = poly := by
  obtain ⟨k, rfl⟩ := Nat.exists_eq_add_of_le (Nat.succ_le_of_lt hn)
  have hsum : ∀ i < p + d + 1 + k, e i = (decide (i = p) ^^ decide (i = p + d)) := by
    intro i hi
    rw [Bool.eq_iff_iff, he i hi]
    by_cases h₁ : i = p <;> by_cases h₂ : i = p + d <;> simp [h₁, h₂] <;> omega
  have hfirst : feed poly 0#w (fun i => decide (i = p)) (p + d + 1 + k) = advance poly (advance poly poly d) k := by
    rw [show p + d + 1 + k = p + 1 + (d + k) by omega, feed_single, advance_add]
  have hfeed : feed poly 0#w e (p + d + 1 + k) = advance poly (advance poly poly d ^^^ poly) k := by
    have h := feed_xor poly 0#w 0#w (fun i => decide (i = p)) (fun i => decide (i = p + d)) (p + d + 1 + k)
    rw [BitVec.xor_self, hfirst, feed_single] at h
    rw [feed_congr hsum, advance_xor, ← h]
  rw [hfeed, advance_eq_zero_iff hpoly]
  exact BitVec.xor_eq_zero_iff

/-! ### Errors of odd weight -/

/-- Whether an odd number of the first `n` bits is set. -/
def parity (bits : Nat → Bool) : Nat → Bool
  | 0 => false
  | n + 1 => parity bits n ^^ bits n

theorem parity_eq_true_iff (n : Nat) :
    parity bits n = true ↔ Odd ((Finset.range n).filter fun i => bits i = true).card := by
  induction n with
  | zero => simp [parity]
  | succ n ih =>
    rw [parity, Finset.range_add_one, Finset.filter_insert]
    cases hb : bits n with
    | false => simpa using ih
    | true => simp [Nat.odd_add_one, ← ih]

theorem parity_xor (n : Nat) : parity (fun i => bits i ^^ e i) n = (parity bits n ^^ parity e n) := by
  induction n with
  | zero => rfl
  | succ n ih =>
    rw [parity, parity, parity, ih, Bool.xor_assoc, Bool.xor_assoc, Bool.xor_left_comm (parity e n)]

theorem parity_zero (n : Nat) : parity (0#w).getMsbD n = false := by
  induction n with
  | zero => rfl
  | succ n ih => rw [parity, ih, BitVec.getMsbD_zero, Bool.xor_self]

theorem parity_succ (n : Nat) : (bits 0 ^^ parity (fun i => bits (i + 1)) n) = parity bits (n + 1) := by
  induction n with
  | zero => rw [parity, parity, parity, Bool.xor_comm]
  | succ n ih => rw [parity, parity, ← ih, Bool.xor_assoc]

/-- Moving the register up takes its top bit out of the parity. -/
theorem parity_shiftLeft (r : BitVec w) : parity (r <<< 1).getMsbD w = (parity r.getMsbD w ^^ r.msb) := by
  have hlast : parity r.getMsbD (w + 1) = parity r.getMsbD w := by
    rw [parity, BitVec.getMsbD_of_ge r w (Nat.le_refl w), Bool.xor_false]
  have hleft : (r <<< 1).getMsbD = fun i => r.getMsbD (i + 1) := funext fun i => BitVec.getMsbD_shiftLeft r 1
  rw [hleft, ← hlast, ← parity_succ, BitVec.msb_eq_getMsbD_zero, Bool.xor_comm, ← Bool.xor_assoc, Bool.xor_self,
    Bool.false_xor]

/-- The register keeps the parity of the bits fed in if the generator, with its leading term, has an even number
    of terms. -/
theorem parity_shift (hpoly : parity poly.getMsbD w = true) (b : Bool) :
    parity (shift poly r b).getMsbD w = (parity r.getMsbD w ^^ b) := by
  have hfeedback : parity (if r.msb ^^ b then poly else 0#w).getMsbD w = (r.msb ^^ b) := by
    cases r.msb ^^ b with
    | false => exact parity_zero w
    | true => exact hpoly
  have hxor : (shift poly r b).getMsbD =
      fun i => (r <<< 1).getMsbD i ^^ (if r.msb ^^ b then poly else 0#w).getMsbD i :=
    funext fun i => BitVec.getMsbD_xor
  rw [hxor, parity_xor, parity_shiftLeft, hfeedback, Bool.xor_assoc, ← Bool.xor_assoc r.msb, Bool.xor_self,
    Bool.false_xor]

theorem parity_feed (hpoly : parity poly.getMsbD w = true) (n : Nat) :
    parity (feed poly r bits n).getMsbD w = (parity r.getMsbD w ^^ parity bits n) := by
  induction n with
  | zero => rw [feed, parity, Bool.xor_false]
  | succ n ih => rw [feed, parity_shift hpoly, ih, parity, Bool.xor_assoc]

/-- An error of odd weight never goes unseen by such a register. -/
theorem feed_ne_zero_of_parity (hpoly : parity poly.getMsbD w = true) {n : Nat} (he : parity e n = true) :
    feed poly 0#w e n ≠ 0#w := by
  intro hzero
  have h : parity (feed poly 0#w e n).getMsbD w = _ := parity_feed hpoly n
  rw [hzero, parity_zero, he] at h
  exact absurd h (by decide)

end ShiftRegister
