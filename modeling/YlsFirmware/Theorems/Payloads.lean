import YlsFirmware.Theorems.Entries
import YlsFirmware.Theorems.Rows

/-! # What an answer of a BKD stores

The angles of a YKP are taken high byte first, while `Check_message_YV` sends angles low byte first and the
packed structs hold them so. Of a YLK-96 24 bytes are stored, while its entry has 30. -/

namespace YlsFirmware
open Packed

section Answer
variable {s : State} {b j : Fin 12} (h : s.counters.Selects (.bkd b j)) {message : Memory} {size : Nat}
  (ha : Answers message size)
include h ha

theorem ylsToYVPack_answer :
    (checkMessageUART s message size).ylsToYVPack s.currentTickTxEth =
      write ((Store.set (Device.bkd b j).field (Device.bkd b j).index).apply (s.ylsToYVPack s.currentTickTxEth))
        (Device.bkd b j).entry (Device.bkdPayload j message) := by
  have hslot : s.counters.currentBKD ≠ 13 := by
    have hb := b.isLt
    rw [h.1, Device.slot]
    omega
  rw [checkMessageUART, State.ylsToYVPack_store, if_pos rfl, replyStores_selects message size h hslot, if_pos ha,
    applyStores_cons, Device.applyStores_stores]
  rfl

/-- The bytes of the entry after an answer: the payload, and behind it what was there. -/
theorem entry_answer {i : Nat} (hi : i < (Device.bkd b j).extent) :
    (checkMessageUART s message size).ylsToYVPack s.currentTickTxEth ((Device.bkd b j).entry + i) =
      if i < (Device.bkdPayload j message).length then (Device.bkdPayload j message).getD i 0
      else s.ylsToYVPack s.currentTickTxEth ((Device.bkd b j).entry + i) := by
  rw [ylsToYVPack_answer h ha]
  have hge : 30 ≤ (Device.bkd b j).entry + i :=
    Device.Entry.ge ⟨Nat.le_add_right _ _, Nat.add_lt_add_left hi _⟩
  split_ifs with hlt
  · exact write_at hlt
  · rw [write_of_ge (Nat.add_le_add_left (Nat.not_lt.mp hlt) _), apply_set_of_ge (Nat.le_trans (by decide) hge)]

end Answer

/-! ### Angles -/

/-- The bytes 0, 1 and 2, 3 are the angles, low byte first. -/
def HasAngles (message : Memory) (a₁ a₂ : BitVec 16) : Prop :=
  [message 0, message 1] = bytes16 a₁ ∧ [message 2, message 3] = bytes16 a₂

/-- The columns 4 to 7 of a command row are the angles of the packet in this order. -/
theorem hasAngles_commandRow (rxpak : Memory) (b : Nat) (row : Memory) :
    HasAngles (fun i => commandRow rxpak b row (4 + i)) (load16 rxpak (yvToYLSData.addr ⟨.ykpAngle, [b, 0]⟩))
      (load16 rxpak (yvToYLSData.addr ⟨.ykpAngle, [b, 1]⟩)) := by
  obtain ⟨h₄, h₅, h₆, h₇⟩ := commandRow_ykpAngle rxpak b row
  rw [HasAngles, bytes16_load16, bytes16_load16]
  simp only [Nat.reduceAdd, h₄, h₅, h₆, h₇, and_self]

/-- After the answer, the packet to YV has the angles for processor `p` of BKD `b`. -/
def ReportsAngles (s : State) (message : Memory) (size : Nat) (b p : Nat) (a₁ a₂ : BitVec 16) : Prop :=
  let pk := (checkMessageUART s message size).ylsToYVPack s.currentTickTxEth
  load16 pk (ylsToYVData.addr ⟨.ykpAngle, [b, p, 0]⟩) = a₁ ∧ load16 pk (ylsToYVData.addr ⟨.ykpAngle, [b, p, 1]⟩) = a₂

/-- The two bytes of the angle are equal. -/
def Palindromic (a : BitVec 16) : Prop := a.setWidth 8 = (a >>> 8).setWidth 8

instance (a : BitVec 16) : Decidable (Palindromic a) := inferInstanceAs (Decidable (_ = _))

theorem append_swap_iff {a : BitVec 16} : a.setWidth 8 ++ (a >>> 8).setWidth 8 = a ↔ Palindromic a := by
  have hswap : a.setWidth 8 ++ (a >>> 8).setWidth 8 = a ↔
      a.setWidth 8 ++ (a >>> 8).setWidth 8 = (a >>> 8).setWidth 8 ++ a.setWidth 8 := by
    rw [append_setWidth]
  rw [hswap, append_inj, Palindromic]
  exact ⟨And.left, fun h => ⟨h, h.symm⟩⟩

section Angles
variable {s : State} {b j : Fin 12} (h : s.counters.Selects (.bkd b j)) (hj : (j : Nat) < 3) {message : Memory}
  {size : Nat} (ha : Answers message size)
include h hj ha

/-- An angle in the packet after an answer: the first of its two bytes in the frame has become the high one. -/
theorem load16_answer {i : Nat} (hi : i < 2) :
    load16 ((checkMessageUART s message size).ylsToYVPack s.currentTickTxEth)
        (ylsToYVData.addr ⟨.ykpAngle, [b, j, i]⟩) =
      message (2 * i) ++ message (2 * i + 1) := by
  have haddr : ylsToYVData.addr ⟨.ykpAngle, [b, j, i]⟩ = (Device.bkd b j).entry + 2 * i := by
    rw [Device.entry, Device.addr_bkdElem, if_pos hj, addr_ykpAngle]
  have hextent : (Device.bkd b j).extent = 4 := by
    rw [Device.extent_bkd, if_pos hj]
  have hpayload : Device.bkdPayload j message = [message 1, message 0, message 3, message 2] := if_pos hj
  rw [haddr, load16, Nat.add_assoc, entry_answer h ha (by omega), entry_answer h ha (by omega), hpayload]
  obtain rfl | rfl : i = 0 ∨ i = 1 := by omega
  · rfl
  · rfl

theorem reports_iff {a₁ a₂ : BitVec 16} (he : HasAngles message a₁ a₂) :
    ReportsAngles s message size b j a₁ a₂ ↔ Palindromic a₁ ∧ Palindromic a₂ := by
  obtain ⟨h₁, h₂⟩ := he
  simp only [bytes16, List.cons.injEq, and_true] at h₁ h₂
  simp only [ReportsAngles]
  rw [load16_answer h hj ha (by decide), load16_answer h hj ha (by decide)]
  simp only [Nat.reduceMul, Nat.reduceAdd, h₁, h₂, append_swap_iff]

end Angles

/-- The angles of an answer are reported exactly if the two bytes of each are equal. The order of the bytes in the
    answer is that of the command frame. -/
theorem reportsAngles_iff {s : State} {b p : Fin 12} (h : s.counters.Selects (.bkd b p)) (hp : (p : Nat) < 3)
    {message : Memory} {size : Nat} (ha : Answers message size) {a₁ a₂ : BitVec 16} (he : HasAngles message a₁ a₂) :
    (ReportsAngles s message size b p a₁ a₂ ↔ Palindromic a₁ ∧ Palindromic a₂) ∧
      ∀ rxpak row, HasAngles (fun i => commandRow rxpak b row (4 + i))
        (load16 rxpak (yvToYLSData.addr ⟨.ykpAngle, [b, 0]⟩)) (load16 rxpak (yvToYLSData.addr ⟨.ykpAngle, [b, 1]⟩)) :=
  ⟨reports_iff h hp ha he, fun rxpak row => hasAngles_commandRow rxpak b row⟩

/-- The first device polled is YKP 1 of BKD 1. It answers with the angle 1 and is reported with 256. -/
theorem not_reportsAngles_one :
    (after [.tick]).counters.Selects (.bkd 1 0) ∧
      Answers (sealFrame (fun i => if i = 0 then 1 else 0) 32) 32 ∧
      HasAngles (sealFrame (fun i => if i = 0 then 1 else 0) 32) 1 0 ∧
      ¬ ReportsAngles (after [.tick]) (sealFrame (fun i => if i = 0 then 1 else 0) 32) 32 1 0 1 0 := by
  have hsel : (after [.tick]).counters.Selects (.bkd 1 0) := by decide
  have ha : Answers (sealFrame (fun i => if i = 0 then 1 else 0) 32) 32 := answers_sealFrame _
  have he : HasAngles (sealFrame (fun i => if i = 0 then 1 else 0) 32) 1 0 := ⟨by decide, by decide⟩
  refine ⟨hsel, ha, he, fun hrep => ?_⟩
  have hpal := (reports_iff hsel (by decide) ha he).mp hrep
  exact absurd hpal.1 (by decide)

theorem reportsAngles_minus_one :
    ReportsAngles (after [.tick]) (sealFrame (fun _ => 255) 32) 32 1 0 (-1) (-1) := by
  have h : (after [.tick]).counters.Selects (.bkd 1 0) := by decide
  have ha : Answers (sealFrame (fun _ => 255) 32) 32 := answers_sealFrame _
  exact (reportsAngles_iff h (by decide) ha ⟨by decide, by decide⟩).1.mpr ⟨by decide, by decide⟩

/-! ### Data and masks -/

/-- After the answer, every byte that the packet to YV has for device `j` of BKD `b`, a YAZ, YPS or YLK-96, is from
    the frame. -/
def StoredCompletely (s : State) (message : Memory) (size b j : Nat) : Prop :=
  let pk := (checkMessageUART s message size).ylsToYVPack s.currentTickTxEth
  if j < 6 then ∀ i < 24, pk (ylsToYVData.addr ⟨.yazData, [b, j - 3, i]⟩) = message i
  else if j < 9 then pk (ylsToYVData.addr ⟨.ypsMask, [b, j - 6]⟩) = message 0
  else ∀ i < 30, pk (ylsToYVData.addr ⟨.ylk96Data, [b, j - 9, i]⟩) = message i

/-- The last six bytes for a YLK-96, which its answers do not store, are those of the frame already. -/
def TailKept (s : State) (message : Memory) (b j : Nat) : Prop := ∀ i, 24 ≤ i → i < 30 →
  s.ylsToYVPack s.currentTickTxEth (ylsToYVData.addr ⟨.ylk96Data, [b, j - 9, i]⟩) = message i

theorem addr_yazData_add (b p i : Nat) :
    ylsToYVData.addr ⟨.yazData, [b, p, i]⟩ = ylsToYVData.addr ⟨.yazData, [b, p, 0]⟩ + i := by
  rw [addr_yazData, addr_yazData]
  rfl

theorem addr_ylk96Data_add (b p i : Nat) :
    ylsToYVData.addr ⟨.ylk96Data, [b, p, i]⟩ = ylsToYVData.addr ⟨.ylk96Data, [b, p, 0]⟩ + i := by
  rw [addr_ylk96Data, addr_ylk96Data]
  rfl

theorem getD_map_range (message : Memory) {n i : Nat} (h : i < n) :
    ((List.range n).map message).getD i 0 = message i := by
  simp [List.getD_eq_getElem?_getD, h]

/-- An answer of a YAZ or of a YPS is stored completely. Of an answer of a YLK-96 the last six bytes are not
    stored, so they are in the packet only where they were before. -/
theorem storedCompletely_iff {s : State} {b j : Fin 12} (h : s.counters.Selects (.bkd b j)) (hj : 3 ≤ (j : Nat))
    {message : Memory} {size : Nat} (ha : Answers message size) :
    StoredCompletely s message size b j ↔ (9 ≤ (j : Nat) → TailKept s message b j) := by
  have hj3 : ¬ (j : Nat) < 3 := Nat.not_lt.mpr hj
  have hentry := fun {i : Nat} => @entry_answer s b j h message size ha i
  rw [Device.extent_bkd, if_neg hj3] at hentry
  simp only [Device.entry, Device.bkdElem, Device.bkdPayload, hj3, if_false] at hentry
  unfold StoredCompletely TailKept
  by_cases h6 : (j : Nat) < 6
  · simp only [h6, if_true, List.length_map, List.length_range] at hentry ⊢
    refine iff_of_true (fun i hi => ?_) fun h9 => absurd h9 (by omega)
    rw [addr_yazData_add, hentry hi, if_pos hi, getD_map_range message hi]
  by_cases h9 : (j : Nat) < 9
  · simp only [h6, h9, if_true, if_false, List.length_singleton] at hentry ⊢
    exact iff_of_true (hentry Nat.one_pos) fun hge => absurd h9 (Nat.not_lt.mpr hge)
  · simp only [h6, h9, if_false, List.length_map, List.length_range] at hentry ⊢
    constructor
    · intro hstored _ i hlo hhi
      have hi := hentry hhi
      rw [if_neg (Nat.not_lt.mpr hlo), ← addr_ylk96Data_add] at hi
      exact hi.symm.trans (hstored i hhi)
    · intro htail i hi
      rw [addr_ylk96Data_add, hentry hi]
      by_cases h24 : i < 24
      · rw [if_pos h24, getD_map_range message h24]
      · rw [if_neg h24, ← addr_ylk96Data_add]
        exact htail (Nat.not_lt.mp h9) i (Nat.not_lt.mp h24) hi

theorem selects_ylk96_ticks : (after (List.replicate 126 .tick)).counters.Selects (.bkd 0 9) := by
  rw [counters_ticks]
  decide +kernel

/-- The first answer of YLK-96 number 1 of BKD 0, with ones. -/
theorem not_storedCompletely_ylk96 :
    (after (List.replicate 126 .tick)).counters.Selects (.bkd 0 9) ∧ Answers (sealFrame (fun _ => 1) 32) 32 ∧
      ¬ StoredCompletely (after (List.replicate 126 .tick)) (sealFrame (fun _ => 1) 32) 32 0 9 := by
  have ha : Answers (sealFrame (fun _ => 1) 32) 32 := answers_sealFrame _
  refine ⟨selects_ylk96_ticks, ha, fun hstored => ?_⟩
  have hzero : (after (List.replicate 126 .tick)).ylsToYVPack
      (after (List.replicate 126 .tick)).currentTickTxEth ((Device.bkd 0 9).entry + 24) = 0 :=
    ticks_of_ge (by decide) 126 _
  have hone := hstored 24 (by decide)
  rw [addr_ylk96Data_add] at hone
  have hold := entry_answer selects_ylk96_ticks ha (show 24 < (Device.bkd 0 9).extent by decide)
  rw [if_neg (by decide), hzero] at hold
  exact absurd (hold.symm.trans hone) (by decide)

theorem storedCompletely_ylk96_zero :
    StoredCompletely (after (List.replicate 126 .tick)) (sealFrame (fun _ => 0) 32) 32 0 9 := by
  have ha : Answers (sealFrame (fun _ => 0) 32) 32 := answers_sealFrame _
  refine (storedCompletely_iff selects_ylk96_ticks (by decide) ha).mpr fun _ i hlo hhi => ?_
  have hsealed : sealFrame (fun _ => 0) 32 i = 0 := Function.update_of_ne (by omega) _ _
  rw [hsealed]
  exact ticks_of_ge (by rw [addr_ylk96Data]; omega) 126 _

end YlsFirmware
