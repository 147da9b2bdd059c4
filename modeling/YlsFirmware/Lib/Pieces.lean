import Mathlib.Data.List.Perm.Basic
import Mathlib.Tactic.Basic

/-! # Pieces of a string

A string is cut into pieces, each of them with its start and its end. Pieces that are apart and in order cover the string
if they have no hole, and are put together by the order alone. -/

namespace Pieces
variable {ι β : Type} {start stop : ι → Nat} {o : Nat} {xs ys : List ι} {x : ι}

/-- The pieces follow each other without a hole, from `o` on. -/
def Chained (start stop : ι → Nat) : Nat → List ι → Prop
  | _, [] => True
  | o, x :: xs => start x = o ∧ Chained start stop (stop x) xs

/-- Where the pieces from `o` on end -/
def endOf (stop : ι → Nat) : Nat → List ι → Nat
  | o, [] => o
  | _, x :: xs => endOf stop (stop x) xs

/-- The pieces are apart, and in order. -/
def Ordered (start stop : ι → Nat) (xs : List ι) : Prop :=
  xs.Pairwise fun x y => stop x ≤ start y ∧ start x < start y

theorem chained_append :
    Chained start stop o (xs ++ ys) ↔ Chained start stop o xs ∧ Chained start stop (endOf stop o xs) ys := by
  induction xs generalizing o with
  | nil => exact ⟨fun h => ⟨trivial, h⟩, fun h => h.2⟩
  | cons x xs ih =>
    rw [List.cons_append, Chained, ih, Chained, and_assoc]
    rfl

theorem endOf_append : endOf stop o (xs ++ ys) = endOf stop (endOf stop o xs) ys := by
  induction xs generalizing o with
  | nil => rfl
  | cons x xs ih => exact ih

theorem endOf_concat : endOf stop o (xs ++ [x]) = stop x := by
  rw [endOf_append]
  rfl

/-- The end of pieces in order is the largest one. -/
theorem Ordered.le_endOf (h : Ordered start stop xs) (hle : ∀ x ∈ xs, start x ≤ stop x) (hx : x ∈ xs) :
    stop x ≤ endOf stop o xs := by
  obtain ⟨as, bs, rfl⟩ := List.append_of_mem hx
  rcases List.eq_nil_or_concat bs with rfl | ⟨bs', y, rfl⟩
  · rw [endOf_append]
    exact Nat.le_refl _
  · have hy : y ∈ as ++ x :: bs'.concat y := by simp
    have hpair := (List.pairwise_append.mp h).2.1
    have hxy := (List.pairwise_cons.mp hpair).1 y (by simp)
    rw [List.concat_eq_append, ← List.cons_append, ← List.append_assoc, endOf_concat]
    exact Nat.le_trans hxy.1 (hle y hy)

/-- A piece put in its place -/
theorem Ordered.insert (h : Ordered start stop (xs ++ ys)) (hxs : ∀ a ∈ xs, stop a ≤ start x ∧ start a < start x)
    (hys : ∀ b ∈ ys, stop x ≤ start b ∧ start x < start b) : Ordered start stop (xs ++ x :: ys) := by
  obtain ⟨hx, hy, hxy⟩ := List.pairwise_append.mp h
  refine List.pairwise_append.mpr ⟨hx, List.pairwise_cons.mpr ⟨hys, hy⟩, fun a ha b hb => ?_⟩
  rcases List.mem_cons.mp hb with rfl | hb
  · exact hxs a ha
  · exact hxy a ha b hb

theorem Ordered.nodup (h : Ordered start stop xs) : xs.Nodup :=
  h.imp fun hxy heq => absurd (heq ▸ hxy.2) (Nat.lt_irrefl _)

/-- Pieces in order are determined by which ones they are. -/
theorem Ordered.eq_of_mem_iff (hx : Ordered start stop xs) (hy : Ordered start stop ys) (h : ∀ x, x ∈ xs ↔ x ∈ ys) :
    xs = ys := by
  have hperm : xs.Perm ys := (List.perm_ext_iff_of_nodup hx.nodup hy.nodup).mpr h
  refine hperm.eq_of_pairwise (fun a b _ _ hab hba => ?_) hx hy
  exact absurd (Nat.lt_trans hab.2 hba.2) (Nat.lt_irrefl _)

/-- Pieces that are not empty and have no hole are in order. -/
theorem Chained.ordered (h : Chained start stop o xs) (hlt : ∀ x ∈ xs, start x < stop x) :
    Ordered start stop xs ∧ ∀ x ∈ xs, o ≤ start x := by
  induction xs generalizing o with
  | nil => exact ⟨List.Pairwise.nil, fun x hx => absurd hx List.not_mem_nil⟩
  | cons x xs ih =>
    obtain ⟨rfl, hrest⟩ := h
    obtain ⟨hx, hxs⟩ := List.forall_mem_cons.mp hlt
    obtain ⟨hordered, hle⟩ := ih hrest hxs
    refine ⟨List.pairwise_cons.mpr ⟨fun y hy => ⟨hle y hy, Nat.lt_of_lt_of_le hx (hle y hy)⟩, hordered⟩, ?_⟩
    exact List.forall_mem_cons.mpr ⟨Nat.le_refl _, fun y hy => Nat.le_trans (Nat.le_of_lt hx) (hle y hy)⟩

/-- Every place of the string lies in a piece, if they have no hole. -/
theorem Chained.covers (h : Chained start stop o xs) {i : Nat} (hi : o ≤ i) (hend : i < endOf stop o xs) :
    ∃ x ∈ xs, start x ≤ i ∧ i < stop x := by
  induction xs generalizing o with
  | nil => exact absurd hend (Nat.not_lt.mpr hi)
  | cons x xs ih =>
    obtain ⟨rfl, hrest⟩ := h
    by_cases hx : i < stop x
    · exact ⟨x, List.mem_cons_self, hi, hx⟩
    · obtain ⟨y, hy, hle⟩ := ih hrest (Nat.le_of_not_lt hx) hend
      exact ⟨y, List.mem_cons_of_mem _ hy, hle⟩

theorem endOf_mem (h : xs ≠ []) : ∃ x ∈ xs, endOf stop o xs = stop x := by
  rcases List.eq_nil_or_concat xs with rfl | ⟨xs', y, rfl⟩
  · exact absurd rfl h
  · rw [List.concat_eq_append]
    exact ⟨y, List.mem_append_right _ List.mem_cons_self, endOf_concat⟩

/-- Pieces without a hole are a slice of the string, put together. -/
theorem Chained.flatMap_eq {f : ι → List β} {data : List β} (h : Chained start stop o xs)
    (hle : ∀ x ∈ xs, start x ≤ stop x) (hf : ∀ x ∈ xs, f x = (data.drop (start x)).take (stop x - start x)) :
    o ≤ endOf stop o xs ∧ xs.flatMap f = (data.drop o).take (endOf stop o xs - o) := by
  induction xs generalizing o with
  | nil => exact ⟨Nat.le_refl _, by rw [endOf, Nat.sub_self, List.take_zero]; rfl⟩
  | cons x xs ih =>
    obtain ⟨rfl, hrest⟩ := h
    obtain ⟨hend, hflat⟩ := ih hrest (fun y hy => hle y (List.mem_cons_of_mem _ hy))
      fun y hy => hf y (List.mem_cons_of_mem _ hy)
    have hx := hle x List.mem_cons_self
    refine ⟨Nat.le_trans hx hend, ?_⟩
    rw [List.flatMap_cons, hflat, hf x List.mem_cons_self, endOf]
    have hsplit : endOf stop (stop x) xs - start x = (stop x - start x) + (endOf stop (stop x) xs - stop x) := by omega
    rw [hsplit, List.take_add, List.drop_drop, Nat.add_sub_cancel' hx]

end Pieces
