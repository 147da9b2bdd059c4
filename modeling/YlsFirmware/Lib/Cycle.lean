import Mathlib.Data.Int.CardIntervalMod
import Mathlib.Logic.Function.Iterate
import Mathlib.Tactic.SplitIfs

/-! # Wrapping counters

A counter that runs up to `hi` and then starts again at `lo`. From a value below `lo` it first climbs; from
`lo` on it runs through `lo`, .., `hi` over and over. What happens once in every `m` steps happens in `n` steps
`n / m` times, or once more. -/

namespace Cycle

/-- The value after `x`. -/
def wrap (lo hi x : Nat) : Nat := if x + 1 > hi then lo else x + 1

variable {lo hi a : Nat}

/-- Up to `hi` the counter counts. -/
theorem iterate_wrap_of_le {n : Nat} (h : a + n ≤ hi) : (wrap lo hi)^[n] a = a + n := by
  induction n with
  | zero => rfl
  | succ n ih =>
    rw [Function.iterate_succ_apply', ih (by omega), wrap, if_neg (by omega), Nat.add_assoc]

/-- From `lo` on the counter is periodic. -/
theorem iterate_wrap (hlo : lo ≤ a) (hhi : a ≤ hi) (n : Nat) :
    (wrap lo hi)^[n] a = lo + (a - lo + n) % (hi + 1 - lo) := by
  induction n with
  | zero =>
    rw [Nat.add_zero, Nat.mod_eq_of_lt (by omega), Nat.add_sub_cancel' hlo]
    rfl
  | succ n ih =>
    have hlt : (a - lo + n) % (hi + 1 - lo) < hi + 1 - lo := Nat.mod_lt _ (by omega)
    rw [Function.iterate_succ_apply', ih, wrap, ← Nat.add_assoc (a - lo), ← Nat.mod_add_mod (a - lo + n)]
    split_ifs with hlast
    · have hself : (a - lo + n) % (hi + 1 - lo) + 1 = hi + 1 - lo := by omega
      rw [hself, Nat.mod_self, Nat.add_zero]
    · have hnext : (a - lo + n) % (hi + 1 - lo) + 1 < hi + 1 - lo := by omega
      rw [Nat.mod_eq_of_lt hnext, Nat.add_assoc]

/-- The counter is in its cycle exactly if it has climbed to `lo`. -/
theorem le_iterate_wrap_iff (h : lo ≤ hi) (ha : a ≤ hi) (n : Nat) : lo ≤ (wrap lo hi)^[n] a ↔ lo ≤ a + n := by
  rcases Nat.lt_or_ge (a + n) lo with hlt | hge
  · rw [iterate_wrap_of_le (by omega)]
  · refine iff_of_true ?_ hge
    rcases Nat.le_total lo a with hla | hla
    · rw [iterate_wrap hla ha]
      exact Nat.le_add_right _ _
    · obtain ⟨k, rfl⟩ := Nat.exists_eq_add_of_le' (show lo - a ≤ n by omega)
      have hclimb : (wrap lo hi)^[lo - a] a = lo := by
        rw [iterate_wrap_of_le (by omega), Nat.add_sub_cancel' hla]
      rw [Function.iterate_add_apply, hclimb, iterate_wrap le_rfl h]
      exact Nat.le_add_right _ _

/-! ### Once in every `m` steps -/

section Count
variable {P Q : Nat → Prop} [DecidablePred P] [DecidablePred Q] {m v w : Nat}

theorem count_eq (hm : 0 < m) (h : ∀ i, P i ↔ i ≡ v [MOD m]) (n : Nat) :
    Nat.count P n = n / m + if v % m < n % m then 1 else 0 := by
  have hP : P = (· ≡ v [MOD m]) := funext fun i => propext (h i)
  subst hP
  rw [← Nat.count_modEq_card n hm v]
  congr

/-- Two things that happen once in every `m` steps happen equally often up to one. -/
theorem count_le_count_add_one (hm : 0 < m) (hP : ∀ i, P i ↔ i ≡ v [MOD m]) (hQ : ∀ i, Q i ↔ i ≡ w [MOD m])
    (n : Nat) : Nat.count P n ≤ Nat.count Q n + 1 := by
  rw [count_eq hm hP, count_eq hm hQ]
  split_ifs <;> omega

theorem count_mul (hm : 0 < m) (h : ∀ i, P i ↔ i ≡ v [MOD m]) (k : Nat) : Nat.count P (m * k) = k := by
  rw [count_eq hm h, Nat.mul_div_cancel_left k hm, Nat.mul_mod_right, if_neg (Nat.not_lt_zero _), Nat.add_zero]

end Count

end Cycle
