import Mathlib.Data.Nat.ModEq
import Mathlib.Data.List.Induction
import Mathlib.Tactic.SplitIfs

/-! # Rings of slots with an owner

`n` slots in a ring, each of them either full or free. What fills them goes round behind what empties them, so the
full slots hold a queue: it starts at `tail`, and the next item goes to `head`. -/

namespace Ring
variable {α : Type} {n : Nat} {full full' : Nat → α → Prop} {free free' : Nat → Prop} {tail head : Nat} {q : List α}
  {a : α}

/-- The slot behind slot `i`. -/
def next (n i : Nat) : Nat := if i < n - 1 then i + 1 else 0

theorem next_eq (h : tail < n) : next n tail = (tail + 1) % n := by
  unfold next
  split_ifs with hlast
  · rw [Nat.mod_eq_of_lt (by omega)]
  · have hself : tail + 1 = n := by omega
    rw [hself, Nat.mod_self]

/-- The slots from `tail` on are full and hold `q`, the others are free. -/
structure Holds (n : Nat) (full : Nat → α → Prop) (free : Nat → Prop) (tail head : Nat) (q : List α) : Prop where
  lt : tail < n
  le : q.length ≤ n
  head_eq : head = (tail + q.length) % n
  full_at : ∀ i (h : i < q.length), full ((tail + i) % n) q[i]
  free_at : ∀ i, q.length ≤ i → i < n → free ((tail + i) % n)

theorem Holds.start (hn : 0 < n) (h : ∀ i < n, free i) : Holds n full free 0 0 ([] : List α) := by
  refine ⟨hn, Nat.zero_le n, (Nat.zero_mod n).symm, fun i hi => absurd hi (Nat.not_lt_zero i), fun i _ hi => ?_⟩
  exact h _ (Nat.mod_lt _ hn)

/-- Different places of the ring are different slots. -/
theorem add_mod_inj {i j : Nat} (hi : i < n) (hj : j < n) (h : (tail + i) % n = (tail + j) % n) : i = j := by
  have hmod : i ≡ j [MOD n] := Nat.ModEq.add_left_cancel' tail h
  exact Nat.ModEq.eq_of_lt_of_lt hmod hi hj

theorem Holds.head_lt (h : Holds n full free tail head q) : head < n := by
  rw [h.head_eq]
  exact Nat.mod_lt _ (Nat.zero_lt_of_lt h.lt)

/-- The item at the front is in slot `tail`. -/
theorem Holds.front (h : Holds n full free tail head (a :: q)) : full tail a := by
  have hfull := h.full_at 0 (Nat.zero_lt_succ _)
  rwa [Nat.add_zero, Nat.mod_eq_of_lt h.lt] at hfull

theorem Holds.free_tail (h : Holds n full free tail head []) : free tail := by
  have hfree := h.free_at 0 (Nat.le_refl _) (Nat.zero_lt_of_lt h.lt)
  rwa [Nat.add_zero, Nat.mod_eq_of_lt h.lt] at hfree

/-- In an empty ring, every slot is free. -/
theorem Holds.all_free (h : Holds n full free tail head []) {i : Nat} (hi : i < n) : free i := by
  have hfree := h.free_at ((i + (n - tail)) % n) (Nat.zero_le _) (Nat.mod_lt _ (Nat.zero_lt_of_lt hi))
  have hslot : (tail + (i + (n - tail)) % n) % n = i := by
    have hsum : tail + (i + (n - tail)) = i + n := by
      have hlt := h.lt
      omega
    rw [Nat.add_mod_mod, hsum, Nat.add_mod_right, Nat.mod_eq_of_lt hi]
  rwa [hslot] at hfree

/-- As long as there is room, the next item goes to a free slot. -/
theorem Holds.free_head (h : Holds n full free tail head q) (hlt : q.length < n) : free head :=
  h.head_eq ▸ h.free_at q.length (Nat.le_refl _) hlt

/-- Where there is no room, slot `head` is the one at the front. -/
theorem Holds.full_head (h : Holds n full free tail head q) (hlen : q.length = n) : ∃ b ∈ q, full head b := by
  have hhead : head = tail := by
    rw [h.head_eq, hlen, Nat.add_mod_right, Nat.mod_eq_of_lt h.lt]
  have hpos : 0 < q.length := hlen ▸ Nat.zero_lt_of_lt h.lt
  have hfull := h.full_at 0 hpos
  rw [Nat.add_zero, Nat.mod_eq_of_lt h.lt] at hfull
  exact ⟨q[0], List.getElem_mem hpos, hhead ▸ hfull⟩

/-- The slots tell how many items there are. -/
theorem Holds.length_le {q' : List α} (h : Holds n full free tail head q) (h' : Holds n full free tail head q')
    (hdisj : ∀ i b, full i b → ¬ free i) : q.length ≤ q'.length := by
  by_contra hlt
  have hq := h.le
  exact hdisj _ _ (h.full_at q'.length (by omega)) (h'.free_at q'.length (Nat.le_refl _) (by omega))

/-- A change of the slots that leaves full slots full and free slots free. -/
theorem Holds.frame (h : Holds n full free tail head q) (hfull : ∀ i < n, ∀ b, full i b → full' i b)
    (hfree : ∀ i < n, free i → free' i) : Holds n full' free' tail head q := by
  have hpos : 0 < n := Nat.zero_lt_of_lt h.lt
  exact ⟨h.lt, h.le, h.head_eq, fun i hi => hfull _ (Nat.mod_lt _ hpos) _ (h.full_at i hi),
    fun i hi hlt => hfree _ (Nat.mod_lt _ hpos) (h.free_at i hi hlt)⟩

theorem Holds.push (h : Holds n full free tail head q) (hlt : q.length < n)
    (hfull : ∀ i < n, i ≠ head → ∀ b, full i b → full' i b) (hfree : ∀ i < n, i ≠ head → free i → free' i)
    (ha : full' head a) : Holds n full' free' tail (next n head) (q ++ [a]) := by
  have hpos : 0 < n := Nat.zero_lt_of_lt h.lt
  have hlen : (q ++ [a]).length = q.length + 1 := by simp
  have hne : ∀ i < n, i ≠ q.length → (tail + i) % n ≠ head := fun i hi hne heq =>
    hne (add_mod_inj hi hlt (heq.trans h.head_eq))
  refine ⟨h.lt, by omega, ?_, fun i hi => ?_, fun i hi hin => ?_⟩
  · rw [next_eq h.head_lt, h.head_eq, Nat.mod_add_mod, hlen, Nat.add_assoc]
  · rcases Nat.lt_or_ge i q.length with hiq | hiq
    · rw [List.getElem_append_left hiq]
      exact hfull _ (Nat.mod_lt _ hpos) (hne i (by omega) (by omega)) _ (h.full_at i hiq)
    · have hlast : i = q.length := by omega
      subst hlast
      rw [List.getElem_concat_length rfl, ← h.head_eq]
      exact ha
  · exact hfree _ (Nat.mod_lt _ hpos) (hne i hin (by omega)) (h.free_at i (by omega) hin)

theorem Holds.pop (h : Holds n full free tail head (a :: q))
    (hfull : ∀ i < n, i ≠ tail → ∀ b, full i b → full' i b) (hfree : ∀ i < n, i ≠ tail → free i → free' i)
    (ht : free' tail) : Holds n full' free' (next n tail) head q := by
  have hpos : 0 < n := Nat.zero_lt_of_lt h.lt
  have hle : q.length + 1 ≤ n := h.le
  have hshift : ∀ i, ((tail + 1) % n + i) % n = (tail + (i + 1)) % n := fun i => by
    rw [Nat.mod_add_mod, Nat.add_assoc, Nat.add_comm 1 i]
  have hne : ∀ i, i + 1 < n → (tail + (i + 1)) % n ≠ tail := fun i hi heq => by
    have h0 : (tail + (i + 1)) % n = (tail + 0) % n := by
      rw [heq, Nat.add_zero, Nat.mod_eq_of_lt h.lt]
    exact absurd (add_mod_inj hi hpos h0) (Nat.succ_ne_zero i)
  rw [next_eq h.lt]
  refine ⟨Nat.mod_lt _ hpos, by omega, ?_, fun i hi => ?_, fun i hi hin => ?_⟩
  · rw [hshift]
    exact h.head_eq
  · rw [hshift]
    exact hfull _ (Nat.mod_lt _ hpos) (hne i (by omega)) _ (h.full_at (i + 1) (Nat.succ_lt_succ hi))
  · rw [hshift]
    rcases Nat.lt_or_ge (i + 1) n with hlt | hge
    · exact hfree _ (Nat.mod_lt _ hpos) (hne i hlt) (h.free_at (i + 1) (Nat.succ_le_succ hi) hlt)
    · have hlast : tail + (i + 1) = tail + n := by omega
      rw [hlast, Nat.add_mod_right, Nat.mod_eq_of_lt h.lt]
      exact ht

end Ring
