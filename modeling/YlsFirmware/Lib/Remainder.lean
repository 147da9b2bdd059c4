import Mathlib.Algebra.CharP.Two
import Mathlib.Algebra.Field.ZMod
import Mathlib.Algebra.Polynomial.Div
import Mathlib.RingTheory.Coprime.Lemmas
import Mathlib.Tactic.LinearCombination
import YlsFirmware.Lib.ShiftRegister

/-! # Remainders of bit polynomials

What a shift register computes. Words and streams are read as polynomials over the field of two elements, a word
with its least significant bit and a stream with its last bit as the constant term. The register then holds the
remainder of the stream by the generator. -/

namespace ShiftRegister
open Polynomial

variable {w : Nat}

def coef (b : Bool) : ZMod 2 := if b then 1 else 0

theorem coef_xor (a b : Bool) : coef (a ^^ b) = coef a + coef b := by
  cases a <;> cases b <;> decide

noncomputable def wordPoly (r : BitVec w) : (ZMod 2)[X] := ∑ i ∈ Finset.range w, C (coef (r.getLsbD i)) * X ^ i

noncomputable def streamPoly (bits : Nat → Bool) : Nat → (ZMod 2)[X]
  | 0 => 0
  | n + 1 => X * streamPoly bits n + C (coef (bits n))

/-- The generator with its leading term. -/
noncomputable def genPoly (poly : BitVec w) : (ZMod 2)[X] := X ^ w + wordPoly poly

theorem coeff_wordPoly (r : BitVec w) (k : Nat) : (wordPoly r).coeff k = coef (r.getLsbD k) := by
  rw [wordPoly, finsetSum_coeff]
  simp only [coeff_C_mul_X_pow]
  rcases Nat.lt_or_ge k w with hk | hk
  · rw [Finset.sum_eq_single_of_mem k (Finset.mem_range.mpr hk) fun i _ hne => if_neg hne.symm, if_pos rfl]
  · rw [Finset.sum_eq_zero fun i hi => if_neg (by have := Finset.mem_range.mp hi; omega), BitVec.getLsbD_of_ge r k hk]
    rfl

theorem degree_wordPoly_lt (r : BitVec w) : (wordPoly r).degree < w :=
  (degree_lt_iff_coeff_zero _ _).mpr fun k hk => by rw [coeff_wordPoly, BitVec.getLsbD_of_ge r k hk]; rfl

theorem wordPoly_zero : wordPoly (0#w) = 0 := by
  ext k
  rw [coeff_wordPoly, BitVec.getLsbD_zero, coeff_zero]
  rfl

theorem wordPoly_xor (r r' : BitVec w) : wordPoly (r ^^^ r') = wordPoly r + wordPoly r' := by
  ext k
  rw [coeff_add, coeff_wordPoly, coeff_wordPoly, coeff_wordPoly, BitVec.getLsbD_xor, coef_xor]

/-- A word that moves up is multiplied by `X`, but for its top bit. -/
theorem wordPoly_shiftLeft (r : BitVec w) : wordPoly (r <<< 1) + C (coef r.msb) * X ^ w = X * wordPoly r := by
  ext k
  rw [coeff_add, coeff_wordPoly, BitVec.getLsbD_shiftLeft, coeff_C_mul_X_pow, BitVec.msb_eq_getLsbD_last]
  cases k with
  | zero =>
    rcases Nat.eq_zero_or_pos w with rfl | hw
    · simp [coef]
    · simp [coef, hw.ne]
  | succ k =>
    rw [coeff_X_mul, coeff_wordPoly]
    rcases Nat.lt_trichotomy (k + 1) w with hlt | rfl | hgt
    · simp [coef, hlt, hlt.ne]
    · simp [coef]
    · rw [BitVec.getLsbD_of_ge r k (by omega)]
      simp [coef, show ¬ k + 1 < w by omega, hgt.ne']

/-- One bit in is multiplying by `X`, adding the bit at the top and taking off the generator if it fits. -/
theorem wordPoly_shift (poly r : BitVec w) (b : Bool) :
    wordPoly (shift poly r b) + C (coef (r.msb ^^ b)) * genPoly poly = X * wordPoly r + C (coef b) * X ^ w := by
  have hfeedback : wordPoly (if r.msb ^^ b then poly else 0#w) = C (coef (r.msb ^^ b)) * wordPoly poly := by
    cases r.msb ^^ b
    · simp [coef, wordPoly_zero]
    · simp [coef]
  have htwo : (2 : (ZMod 2)[X]) = 0 := CharTwo.two_eq_zero
  rw [shift, wordPoly_xor, hfeedback, ← wordPoly_shiftLeft, genPoly, coef_xor, C_add]
  linear_combination (C (coef r.msb) + C (coef b)) * wordPoly poly * htwo

theorem degree_genPoly (poly : BitVec w) : (genPoly poly).degree = w := by
  rw [genPoly, degree_add_eq_left_of_degree_lt, degree_X_pow]
  rw [degree_X_pow]
  exact degree_wordPoly_lt poly

theorem monic_genPoly (poly : BitVec w) : (genPoly poly).Monic := monic_X_pow_add (degree_wordPoly_lt poly)

/-- The register after a stream is the remainder of what it held before, moved up by the stream, and of the stream,
    moved up by the register. -/
theorem wordPoly_feed (poly r : BitVec w) (bits : Nat → Bool) (n : Nat) :
    wordPoly (feed poly r bits n) = (X ^ n * wordPoly r + X ^ w * streamPoly bits n) %ₘ genPoly poly := by
  have hquotient : ∃ q, wordPoly (feed poly r bits n) + genPoly poly * q =
      X ^ n * wordPoly r + X ^ w * streamPoly bits n := by
    induction n with
    | zero => exact ⟨0, by simp [feed, streamPoly]⟩
    | succ n ih =>
      obtain ⟨q, hq⟩ := ih
      refine ⟨X * q + C (coef ((feed poly r bits n).msb ^^ bits n)), ?_⟩
      rw [feed, streamPoly]
      linear_combination wordPoly_shift poly (feed poly r bits n) (bits n) + X * hq
  obtain ⟨q, hq⟩ := hquotient
  have hdegree : (wordPoly (feed poly r bits n)).degree < (genPoly poly).degree := by
    rw [degree_genPoly]
    exact degree_wordPoly_lt _
  exact (div_modByMonic_unique q _ (monic_genPoly poly) ⟨hq, hdegree⟩).2.symm

theorem wordPoly_eq_zero_iff {r : BitVec w} : wordPoly r = 0 ↔ r = 0#w := by
  constructor
  · intro h
    apply BitVec.eq_of_getLsbD_eq
    intro i _
    have hi : coef (r.getLsbD i) = 0 := by rw [← coeff_wordPoly, h, coeff_zero]
    rw [BitVec.getLsbD_zero]
    cases hb : r.getLsbD i with
    | false => rfl
    | true =>
      rw [hb] at hi
      exact absurd hi (by decide)
  · rintro rfl
    exact wordPoly_zero

/-- The register is empty after a stream exactly if the generator divides what it has taken in. -/
theorem feed_eq_zero_iff_dvd (poly r : BitVec w) (bits : Nat → Bool) (n : Nat) :
    feed poly r bits n = 0#w ↔ genPoly poly ∣ X ^ n * wordPoly r + X ^ w * streamPoly bits n := by
  rw [← wordPoly_eq_zero_iff, wordPoly_feed, modByMonic_eq_zero_iff_dvd (monic_genPoly poly)]

theorem isCoprime_genPoly {poly : BitVec w} (hpoly : poly.getLsbD 0 = true) : IsCoprime (genPoly poly) (X ^ w) := by
  have hw : 0 < w := BitVec.lt_of_getLsbD hpoly
  have hconst : (genPoly poly).coeff 0 = 1 := by
    rw [genPoly, coeff_add, coeff_X_pow, if_neg hw.ne, coeff_wordPoly, hpoly, zero_add]
    rfl
  refine IsCoprime.pow_right ⟨1, -divX (genPoly poly), ?_⟩
  have hdiv := divX_mul_X_add (genPoly poly)
  rw [hconst, C_1] at hdiv
  linear_combination -hdiv

/-- An error goes unseen exactly if the generator divides it. -/
theorem feed_zero_eq_zero_iff_dvd {poly : BitVec w} (hpoly : poly.getLsbD 0 = true) (e : Nat → Bool) (n : Nat) :
    feed poly 0#w e n = 0#w ↔ genPoly poly ∣ streamPoly e n := by
  rw [feed_eq_zero_iff_dvd, wordPoly_zero, mul_zero, zero_add]
  exact ⟨(isCoprime_genPoly hpoly).dvd_of_dvd_mul_left, fun h => h.mul_left _⟩

end ShiftRegister
