import Mathlib.Data.List.Induction
import Mathlib.Tactic.SplitIfs

/-! # Accumulators that start anew when they are full

An accumulator with room for fewer than `cap` items is emptied by the item that would fill it. After a sequence it
holds what comes after the last multiple of `cap` items. -/

namespace Overflow
variable {α : Type} (cap : Nat)

def push (acc : List α) (x : α) : List α := if acc.length + 1 < cap then acc ++ [x] else []

theorem length_push_lt {cap : Nat} (h : 0 < cap) (acc : List α) (x : α) : (push cap acc x).length < cap := by
  unfold push
  split_ifs with hlt
  · simpa using hlt
  · exact h

/-- What is held after the sequence `xs`. -/
def tail (xs : List α) : List α := xs.drop (cap * (xs.length / cap))

theorem length_tail (xs : List α) : (tail cap xs).length = xs.length % cap := by
  rw [tail, List.length_drop, Nat.mod_def]

theorem tail_of_lt {cap : Nat} {xs : List α} (h : xs.length < cap) : tail cap xs = xs := by
  rw [tail, Nat.div_eq_of_lt h, Nat.mul_zero, List.drop_zero]

/-- Behind items that fill the accumulator once, those that it has room for are held. -/
theorem tail_append {cap : Nat} {xs ys : List α} (hx : xs.length = cap) (hy : ys.length < cap) :
    tail cap (xs ++ ys) = ys := by
  have hdiv : (cap + ys.length) / cap = 1 := by
    rw [Nat.add_div_left _ (Nat.zero_lt_of_lt hy), Nat.div_eq_of_lt hy]
  rw [tail, List.length_append, hx, hdiv, Nat.mul_one, ← hx, List.drop_left]

theorem tail_concat {cap : Nat} (h : 0 < cap) (xs : List α) (x : α) :
    tail cap (xs ++ [x]) = push cap (tail cap xs) x := by
  have hlen : (xs ++ [x]).length = xs.length + 1 := by simp
  have hdiv : cap * (xs.length / cap) + xs.length % cap = xs.length := Nat.div_add_mod _ _
  have hmod : xs.length % cap < cap := Nat.mod_lt _ h
  rw [push, length_tail, tail, hlen]
  split_ifs with hlt
  · have hq : (xs.length + 1) / cap = xs.length / cap :=
      Nat.div_eq_of_lt_le (by rw [Nat.mul_comm]; omega) (by rw [Nat.add_mul, Nat.one_mul, Nat.mul_comm]; omega)
    rw [hq, List.drop_append_of_le_length (by omega), tail]
  · have hq : cap * ((xs.length + 1) / cap) = xs.length + 1 := by
      refine Nat.mul_div_cancel' ⟨xs.length / cap + 1, ?_⟩
      rw [Nat.mul_add, Nat.mul_one]
      omega
    rw [hq, ← hlen, List.drop_length]

theorem foldl_push {cap : Nat} (h : 0 < cap) (xs : List α) : xs.foldl (push cap) [] = tail cap xs := by
  induction xs using List.reverseRecOn with
  | nil => simp [tail]
  | append_singleton xs x ih => rw [List.foldl_append, ih, List.foldl_cons, List.foldl_nil, tail_concat h]

end Overflow
