import Mathlib.Data.List.Basic

/-! # Transfers from shared memory

A reader takes the cells of a memory one after the other while others store to it. As long as nobody changes a cell
that is still to be read, what it takes is what the memory held at the start. -/

namespace Transfer
variable {α : Type} {F m m' : Nat → α} {n : Nat} {sent : List α}

/-- The reader has taken `sent` of the `n` cells of `F`, and the rest of them is still in the memory. -/
structure Follows (F m : Nat → α) (n : Nat) (sent : List α) : Prop where
  le : sent.length ≤ n
  taken : sent = (List.range sent.length).map F
  rest : ∀ i, sent.length ≤ i → i < n → m i = F i

theorem Follows.start (m : Nat → α) (n : Nat) : Follows m m n [] := ⟨Nat.zero_le n, rfl, fun _ _ _ => rfl⟩

theorem Follows.read (h : Follows F m n sent) (hlt : sent.length < n) : Follows F m n (sent ++ [m sent.length]) := by
  have hlen : (sent ++ [m sent.length]).length = sent.length + 1 := by
    simp
  refine ⟨hlen ▸ hlt, ?_, fun i hi => h.rest i ?_⟩
  · rw [hlen, List.range_succ, List.map_append, ← h.taken, h.rest _ (Nat.le_refl _) hlt]
    rfl
  · rw [hlen] at hi
    exact Nat.le_of_succ_le hi

theorem Follows.store (h : Follows F m n sent) (hstore : ∀ i, sent.length ≤ i → m' i = m i) : Follows F m' n sent :=
  ⟨h.le, h.taken, fun i hi hlt => (hstore i hi).trans (h.rest i hi hlt)⟩

/-- What a complete transfer has taken. -/
theorem Follows.complete (h : Follows F m n sent) (hn : sent.length = n) : sent = (List.range n).map F := hn ▸ h.taken

end Transfer
