import Mathlib.Algebra.GroupWithZero.Nat
import Mathlib.Algebra.Ring.Parity
import Mathlib.Data.Nat.Digits.Lemmas
import Mathlib.Data.Nat.ModEq
import Mathlib.Tactic.Ring

/-! # One's complement sums

Words to the base `B`, added with the carries folded back in. Folding keeps a sum modulo `B - 1`, and it makes nothing
zero that was not. With `B = b * b`, a string of bytes has the sum of the number whose digits to the base `b` it is:
exchanging the bytes of a word multiplies by `b`, and `b * b` counts as one. -/

namespace OnesComplement
variable {b B m n k : Nat}

/-- The same one's complement sum: congruent modulo `B - 1`, and zero only together. -/
def Same (B m n : Nat) : Prop := m ≡ n [MOD B - 1] ∧ (m = 0 ↔ n = 0)

theorem Same.refl (B n : Nat) : Same B n n := ⟨rfl, Iff.rfl⟩

theorem Same.symm (h : Same B m n) : Same B n m := ⟨h.1.symm, h.2.symm⟩

theorem Same.trans (h : Same B m n) (h' : Same B n k) : Same B m k := ⟨h.1.trans h'.1, h.2.trans h'.2⟩

theorem Same.add {m' n' : Nat} (h : Same B m n) (h' : Same B m' n') : Same B (m + m') (n + n') :=
  ⟨h.1.add h'.1, by rw [Nat.add_eq_zero_iff, Nat.add_eq_zero_iff, h.2, h'.2]⟩

theorem Same.mul_left (c : Nat) (h : Same B m n) : Same B (c * m) (c * n) :=
  ⟨h.1.mul_left c, by rw [Nat.mul_eq_zero, Nat.mul_eq_zero, h.2]⟩

/-- A sum has one word, if that word is to be zero only for zero. -/
theorem Same.eq (h : Same B m n) (hm : m < B) (hn : n < B) : m = n := by
  obtain ⟨hmod, hzero⟩ := h
  rcases Nat.lt_or_eq_of_le (Nat.le_sub_one_of_lt hm) with hm' | rfl
  · rcases Nat.lt_or_eq_of_le (Nat.le_sub_one_of_lt hn) with hn' | rfl
    · exact Nat.ModEq.eq_of_lt_of_lt hmod hm' hn'
    · have hm0 : m = 0 := Nat.eq_zero_of_dvd_of_lt ((Nat.modEq_zero_iff_dvd).mp (hmod.trans (Nat.mod_self _))) hm'
      exact hm0.trans (hzero.mp hm0).symm
  · rcases Nat.lt_or_eq_of_le (Nat.le_sub_one_of_lt hn) with hn' | rfl
    · have hn0 : n = 0 :=
        Nat.eq_zero_of_dvd_of_lt ((Nat.modEq_zero_iff_dvd).mp (hmod.symm.trans (Nat.mod_self _))) hn'
      exact (hzero.mpr hn0).trans hn0.symm
    · rfl

/-- All digits of the word set: the other zero. -/
theorem same_sub_one_iff (hB : 1 < B) : Same B n (B - 1) ↔ n ≠ 0 ∧ B - 1 ∣ n := by
  constructor
  · rintro ⟨hmod, hzero⟩
    exact ⟨fun h => absurd (hzero.mp h) (by omega), (Nat.modEq_zero_iff_dvd).mp (hmod.trans (Nat.mod_self _))⟩
  · rintro ⟨hne, hdvd⟩
    refine ⟨((Nat.modEq_zero_iff_dvd).mpr hdvd).trans (Nat.mod_self _).symm, iff_of_false hne (by omega)⟩

/-- Of two words in the same place, only the two zeros are taken for each other. -/
theorem window_modEq_iff {c a : Nat} (hB : 1 < B) (hc : Nat.Coprime (B - 1) c) (hm : m < B) (hn : n < B) :
    a + c * m ≡ a + c * n [MOD B - 1] ↔ m = n ∨ m = 0 ∧ n = B - 1 ∨ m = B - 1 ∧ n = 0 := by
  have hcancel : a + c * m ≡ a + c * n [MOD B - 1] ↔ m ≡ n [MOD B - 1] :=
    ⟨fun h => Nat.ModEq.cancel_left_of_coprime hc (Nat.ModEq.add_left_cancel' a h), fun h => (h.mul_left c).add_left a⟩
  rw [hcancel]
  have hself : 0 ≡ B - 1 [MOD B - 1] := (Nat.mod_self _).symm
  constructor
  · intro h
    by_cases hzero : m = 0 ↔ n = 0
    · exact .inl (Same.eq ⟨h, hzero⟩ hm hn)
    · rcases Nat.eq_zero_or_pos m with rfl | hm0
      · have hn0 : n ≠ 0 := fun hn0 => hzero ⟨fun _ => hn0, fun _ => rfl⟩
        exact .inr (.inl ⟨rfl, (Same.eq ⟨hself.symm.trans h, iff_of_false (by omega) hn0⟩ (by omega) hn).symm⟩)
      · have hn0 : n = 0 := by
          by_contra hn0
          exact hzero (iff_of_false hm0.ne' hn0)
        subst hn0
        exact .inr (.inr ⟨(Same.eq ⟨hself.symm.trans h.symm, iff_of_false (by omega) hm0.ne'⟩ (by omega) hm).symm, rfl⟩)
  · rintro (rfl | ⟨rfl, rfl⟩ | ⟨rfl, rfl⟩)
    · rfl
    · exact hself
    · exact hself.symm

/-! ### Carries -/

/-- The carries out of a word, added to its lowest digit. -/
def fold (B n : Nat) : Nat := n / B + n % B

theorem fold_add (hB : 0 < B) (n : Nat) : fold B n + (B - 1) * (n / B) = n := by
  obtain ⟨c, rfl⟩ := Nat.exists_eq_succ_of_ne_zero hB.ne'
  have hdiv := Nat.div_add_mod n (c + 1)
  rw [fold, Nat.succ_eq_add_one, Nat.add_sub_cancel]
  calc n / (c + 1) + n % (c + 1) + c * (n / (c + 1)) = (c + 1) * (n / (c + 1)) + n % (c + 1) := by ring
    _ = n := hdiv

theorem fold_same (hB : 0 < B) (n : Nat) : Same B (fold B n) n := by
  refine ⟨?_, ?_⟩
  · have hadd : fold B n ≡ fold B n + (B - 1) * (n / B) [MOD B - 1] := (Nat.add_mul_mod_self_left _ _ _).symm
    rwa [fold_add hB] at hadd
  · constructor
    · intro h
      rw [fold, Nat.add_eq_zero_iff] at h
      rw [← Nat.div_add_mod n B, h.1, h.2, Nat.mul_zero]
    · rintro rfl
      rw [fold, Nat.zero_div, Nat.zero_mod]

theorem fold_le (hn : n < B * B) : fold B n ≤ 2 * (B - 1) := by
  have hB : 0 < B := Nat.pos_of_ne_zero fun h => absurd hn (by rw [h]; exact Nat.not_lt_zero n)
  have hdiv : n / B < B := Nat.div_lt_of_lt_mul hn
  have hmod := Nat.mod_lt n hB
  rw [fold]
  omega

/-- At most one carry is left in a sum of two words. -/
theorem fold_lt (hB : 1 < B) (hn : n ≤ 2 * (B - 1)) : fold B n < B := by
  rw [fold]
  rcases Nat.lt_or_ge n B with h | h
  · rw [Nat.div_eq_of_lt h, Nat.mod_eq_of_lt h, Nat.zero_add]
    exact h
  · have hdiv : n / B = 1 := Nat.div_eq_of_lt_le (by omega) (by omega)
    have hmod := Nat.div_add_mod n B
    rw [hdiv] at hmod ⊢
    omega

theorem fold_fold_lt (hB : 1 < B) (hn : n < B * B) : fold B (fold B n) < B := fold_lt hB (fold_le hn)

theorem fold_fold_same (hB : 0 < B) (n : Nat) : Same B (fold B (fold B n)) n := (fold_same hB _).trans (fold_same hB n)

/-! ### Words of two bytes -/

/-- The two bytes of a word, exchanged. -/
def swap (b n : Nat) : Nat := n % b * b + n / b

theorem swap_lt (hn : n < b * b) : swap b n < b * b := by
  have hb : 0 < b := Nat.pos_of_ne_zero fun h => absurd hn (by rw [h]; exact Nat.not_lt_zero n)
  have hdiv : n / b < b := Nat.div_lt_of_lt_mul hn
  have hmod : (n % b + 1) * b ≤ b * b := Nat.mul_le_mul_right b (Nat.mod_lt n hb)
  rw [swap]
  linarith

theorem swap_add (hb : 0 < b) (n : Nat) : swap b n + (b * b - 1) * (n / b) = b * n := by
  have hbb : 0 < b * b := Nat.mul_pos hb hb
  obtain ⟨c, hc⟩ := Nat.exists_eq_succ_of_ne_zero hbb.ne'
  have hdiv := Nat.div_add_mod n b
  rw [swap, hc, Nat.succ_eq_add_one, Nat.add_sub_cancel]
  calc n % b * b + n / b + c * (n / b) = (c + 1) * (n / b) + b * (n % b) := by ring
    _ = b * (b * (n / b) + n % b) := by rw [← Nat.succ_eq_add_one, ← hc]; ring
    _ = b * n := by rw [hdiv]

theorem swap_same (hb : 0 < b) (n : Nat) : Same (b * b) (swap b n) (b * n) := by
  refine ⟨?_, ?_⟩
  · have hadd : swap b n ≡ swap b n + (b * b - 1) * (n / b) [MOD b * b - 1] := (Nat.add_mul_mod_self_left _ _ _).symm
    rwa [swap_add hb] at hadd
  · rw [swap, Nat.add_eq_zero_iff, Nat.mul_eq_zero, Nat.mul_eq_zero, or_iff_left hb.ne', or_iff_right hb.ne']
    constructor
    · rintro ⟨hmod, hdiv⟩
      rw [← Nat.div_add_mod n b, hmod, hdiv, Nat.mul_zero]
    · rintro rfl
      exact ⟨Nat.zero_mod b, Nat.zero_div b⟩

/-- The base itself counts as one. -/
theorem base_mul_same (hB : 0 < B) (n : Nat) : Same B (B * n) n := by
  refine ⟨?_, by rw [Nat.mul_eq_zero, or_iff_right hB.ne']⟩
  obtain ⟨c, rfl⟩ := Nat.exists_eq_succ_of_ne_zero hB.ne'
  rw [Nat.succ_eq_add_one, Nat.add_sub_cancel, Nat.add_mul, Nat.one_mul]
  exact Nat.mul_add_mod _ _ _

theorem swap_swap_same (hb : 0 < b) (n : Nat) : Same (b * b) (b * (b * n)) n := by
  rw [← Nat.mul_assoc]
  exact base_mul_same (Nat.mul_pos hb hb) n

/-- Only whether a string is shifted by an odd number of bytes matters. -/
theorem pow_mul_same (hb : 0 < b) (k n : Nat) : Same (b * b) (b ^ k * n) (if k % 2 = 0 then n else b * n) := by
  have heven : ∀ j m, Same (b * b) (b ^ (2 * j) * m) m := fun j m => by
    induction j with
    | zero => rw [Nat.mul_zero, Nat.pow_zero, Nat.one_mul]; exact .refl _ _
    | succ j ih =>
      have hpow : b ^ (2 * (j + 1)) * m = b * b * (b ^ (2 * j) * m) := by ring
      rw [hpow]
      exact (base_mul_same (Nat.mul_pos hb hb) _).trans ih
  obtain ⟨j, hj⟩ := Nat.even_or_odd' k
  rcases hj with rfl | rfl
  · rw [if_pos (Nat.mul_mod_right 2 j)]
    exact heven j n
  · have hpow : b ^ (2 * j + 1) * n = b ^ (2 * j) * (b * n) := by ring
    rw [if_neg (by omega), hpow]
    exact heven j (b * n)

/-- The sum of the words of a string, the first byte of each the low one; a byte that is left over is a word. -/
def wordSum (b : Nat) : List Nat → Nat
  | [] => 0
  | [x] => x
  | x :: y :: xs => x + b * y + wordSum b xs

theorem wordSum_same (hb : 0 < b) : ∀ xs, Same (b * b) (wordSum b xs) (Nat.ofDigits b xs)
  | [] => by rw [wordSum, Nat.ofDigits_nil]; exact .refl _ _
  | [x] => by rw [wordSum, Nat.ofDigits_singleton]; exact .refl _ _
  | x :: y :: xs => by
    have hdigits : Nat.ofDigits b (x :: y :: xs) = x + b * y + b * b * Nat.ofDigits b xs := by
      rw [Nat.ofDigits_cons, Nat.ofDigits_cons]
      ring
    rw [wordSum, hdigits]
    exact (Same.refl _ _).add ((wordSum_same hb xs).trans (base_mul_same (Nat.mul_pos hb hb) _).symm)

theorem wordSum_lt (hb : 0 < b) : ∀ {xs : List Nat}, (∀ x ∈ xs, x < b) →
    wordSum b xs ≤ (xs.length + 1) / 2 * (b * b - 1)
  | [], _ => Nat.zero_le _
  | [x], h => by
    have hx := h x (List.mem_singleton_self x)
    have hle : b ≤ b * b := Nat.le_mul_of_pos_left b hb
    simp only [wordSum, List.length_singleton]
    omega
  | x :: y :: xs, h => by
    have hx := h x List.mem_cons_self
    have hy := h y (List.mem_cons_of_mem _ List.mem_cons_self)
    have ih := wordSum_lt hb fun z hz => h z (List.mem_cons_of_mem _ (List.mem_cons_of_mem _ hz))
    have hword : x + b * y ≤ b * b - 1 := by
      have hmul : b * (y + 1) ≤ b * b := Nat.mul_le_mul_left b hy
      rw [Nat.mul_succ] at hmul
      omega
    have hlen : ((x :: y :: xs).length + 1) / 2 = (xs.length + 1) / 2 + 1 := by
      rw [List.length_cons, List.length_cons]
      omega
    rw [wordSum, hlen, Nat.succ_mul]
    omega

end OnesComplement
