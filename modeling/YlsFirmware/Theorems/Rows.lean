import YlsFirmware.Theorems.Schedule

/-! # The command rows

What each step does to a row of `message_from_BKD`. A request fills the rows of the BKD and of the BKHO-A, a
poll tick puts the address and the checksum into the row of its slot. -/

namespace YlsFirmware
open Packed

/-! ### Bytes of the packet from YV -/

theorem yvByte_byte {e : Elem YVToYLSField} (h : yvToYLSData.unit e.field = 1) (rxpak : Memory) :
    yvByte rxpak e 0 = rxpak (yvToYLSData.addr e) := by
  simp [yvByte, loadYV, h]

theorem yvByte_low {e : Elem YVToYLSField} (h : yvToYLSData.unit e.field = 2) (rxpak : Memory) :
    yvByte rxpak e 0 = rxpak (yvToYLSData.addr e) := by
  apply BitVec.eq_of_getLsbD_eq
  intro i hi
  have h16 : i < 16 := by omega
  have h32 : i < 32 := by omega
  simp only [yvByte, loadYV, h, if_true, BitVec.getLsbD_setWidth, BitVec.getLsbD_sshiftRight,
    BitVec.getLsbD_signExtend, getLsbD_load16, Nat.zero_add, hi, h16, h32]
  simp [h32]

theorem yvByte_high {e : Elem YVToYLSField} (h : yvToYLSData.unit e.field = 2) (rxpak : Memory) :
    yvByte rxpak e 8 = rxpak (yvToYLSData.addr e + 1) := by
  apply BitVec.eq_of_getLsbD_eq
  intro i hi
  have h16 : 8 + i < 16 := by omega
  have h32 : 8 + i < 32 := by omega
  simp only [yvByte, loadYV, h, if_true, BitVec.getLsbD_setWidth, BitVec.getLsbD_sshiftRight,
    BitVec.getLsbD_signExtend, getLsbD_load16, hi, h16, h32]
  simp [show ¬ 32 ≤ i by omega, show ¬ 8 + i < 8 by omega]

/-- The command is passed on if it is one of the two tests. -/
theorem yvCommand_eq (rxpak : Memory) :
    yvCommand rxpak =
      if rxpak (yvToYLSData.addr ⟨.command, []⟩) = yvCommandTest1 ∨
          rxpak (yvToYLSData.addr ⟨.command, []⟩) = yvCommandTest2 then
        rxpak (yvToYLSData.addr ⟨.command, []⟩)
      else 0 := by
  unfold yvCommand
  generalize rxpak (yvToYLSData.addr ⟨.command, []⟩) = received
  by_cases h₁ : received = yvCommandTest1
  · subst h₁
    decide
  · by_cases h₂ : received = yvCommandTest2
    · subst h₂
      decide
    · simp [h₁, h₂]

/-! ### Rows one by one -/

/-- An assignment to a row, as that row sees it. -/
def RowStore.on (row : Memory) : RowStore → Memory
  | .byte _ c v => Function.update row c v
  | .crc _ n => Function.update row n (crc8 row n)

theorem applyRowStores_row {ws : List RowStore} {r : Nat} (h : ∀ w ∈ ws, w.row = r) (rows : Nat → Memory) :
    applyRowStores ws rows r = ws.foldl RowStore.on (rows r) := by
  induction ws generalizing rows with
  | nil => rfl
  | cons w ws ih =>
    have hr : w.row = r := h w List.mem_cons_self
    have hw : w.apply rows r = w.on (rows r) := by
      subst hr
      cases w <;> exact Function.update_self _ _ _
    rw [applyRowStores_cons, ih fun w' hw' => h w' (List.mem_cons_of_mem _ hw'), hw, List.foldl_cons]

/-- Row `b` after a request, before the checksum that the request puts into it. -/
def commandRow (rxpak : Memory) (b : Nat) (row : Memory) : Memory := fun i =>
  if i = 1 then yvCommand rxpak
  else if i = 2 then yvByte rxpak ⟨.ypsMask, [b]⟩ 0
  else if i = 4 then yvByte rxpak ⟨.ykpAngle, [b, 0]⟩ 0
  else if i = 5 then yvByte rxpak ⟨.ykpAngle, [b, 0]⟩ 8
  else if i = 6 then yvByte rxpak ⟨.ykpAngle, [b, 1]⟩ 0
  else if i = 7 then yvByte rxpak ⟨.ykpAngle, [b, 1]⟩ 8
  else row i

theorem commandRow_of_ne {i : Nat} (h : i ≠ 1 ∧ i ≠ 2 ∧ i ≠ 4 ∧ i ≠ 5 ∧ i ≠ 6 ∧ i ≠ 7) (rxpak : Memory) (b : Nat)
    (row : Memory) : commandRow rxpak b row i = row i := by
  simp [commandRow, h]

theorem commandRow_ypsMask (rxpak : Memory) (b : Nat) (row : Memory) :
    commandRow rxpak b row 2 = rxpak (yvToYLSData.addr ⟨.ypsMask, [b]⟩) := yvByte_byte rfl rxpak

theorem commandRow_ykpAngle (rxpak : Memory) (b : Nat) (row : Memory) :
    commandRow rxpak b row 4 = rxpak (yvToYLSData.addr ⟨.ykpAngle, [b, 0]⟩) ∧
      commandRow rxpak b row 5 = rxpak (yvToYLSData.addr ⟨.ykpAngle, [b, 0]⟩ + 1) ∧
      commandRow rxpak b row 6 = rxpak (yvToYLSData.addr ⟨.ykpAngle, [b, 1]⟩) ∧
      commandRow rxpak b row 7 = rxpak (yvToYLSData.addr ⟨.ykpAngle, [b, 1]⟩ + 1) :=
  ⟨yvByte_low rfl rxpak, yvByte_high rfl rxpak, yvByte_low rfl rxpak, yvByte_high rfl rxpak⟩

def sealRow (n : Nat) (row : Memory) : Memory := Function.update row n (crc8 row n)

theorem sealRow_of_ne {n i : Nat} (h : i ≠ n) (row : Memory) : sealRow n row i = row i := Function.update_of_ne h _ _

theorem sealRow_self (n : Nat) (row : Memory) : sealRow n row n = crc8 (sealRow n row) n := by
  rw [sealRow, Function.update_self]
  exact crc8_congr fun i hi => (Function.update_of_ne (Nat.ne_of_lt hi) _ _).symm

theorem row_yvRow (rxpak : Memory) (b : Nat) : ∀ w ∈ yvRow rxpak b, w.row = b := by
  simp [yvRow, yvColumns, RowStore.row]

theorem foldl_yvRow (rxpak : Memory) (b : Nat) (row : Memory) :
    (yvRow rxpak b).foldl RowStore.on row = sealRow 15 (commandRow rxpak b row) := by
  have hcolumns : ((yvRow rxpak b).take 6).foldl RowStore.on row = commandRow rxpak b row := by
    funext i
    simp only [yvRow, yvColumns, List.map_cons, List.map_nil, List.cons_append, List.nil_append, List.take_succ_cons,
      List.take_zero, List.foldl_cons, List.foldl_nil, RowStore.on, Function.update_apply, commandRow]
    split_ifs <;> first | rfl | omega
  have hsplit : yvRow rxpak b = (yvRow rxpak b).take 6 ++ [.crc b 15] := rfl
  rw [hsplit, List.foldl_append, hcolumns]
  rfl

/-- The loop treats the rows one by one. -/
theorem applyRowStores_yvRows (rxpak : Memory) (rows : Nat → Memory) (r : Nat) :
    applyRowStores (yvRows rxpak) rows r =
      if r < 13 then sealRow 15 (commandRow rxpak r (rows r)) else rows r := by
  have hloop : ∀ n, applyRowStores ((List.range n).flatMap (yvRow rxpak)) rows r =
      if r < n then sealRow 15 (commandRow rxpak r (rows r)) else rows r := by
    intro n
    induction n with
    | zero => rfl
    | succ n ih =>
      rw [List.range_succ, List.flatMap_append, applyRowStores_append, List.flatMap_singleton]
      rcases Nat.lt_trichotomy r n with h | rfl | h
      · have hne : ∀ w ∈ yvRow rxpak n, w.row ≠ r := fun w hw => row_yvRow rxpak n w hw ▸ Nat.ne_of_gt h
        rw [applyRowStores_of_ne hne, ih, if_pos h, if_pos (Nat.lt_succ_of_lt h)]
      · rw [applyRowStores_row (row_yvRow rxpak r), ih, if_neg (Nat.lt_irrefl r), if_pos (Nat.lt_succ_self r),
          foldl_yvRow]
      · have hne : ∀ w ∈ yvRow rxpak n, w.row ≠ r := fun w hw => row_yvRow rxpak n w hw ▸ Nat.ne_of_lt h
        rw [applyRowStores_of_ne hne, ih, if_neg (by omega), if_neg (by omega)]
  exact hloop 13

/-! ### Steps -/

def pollRow (adress : Nat) (row : Memory) : Memory :=
  sealRow 19 (Function.update row 0 (BitVec.ofNat 8 adress))

theorem pollRow_of_ne {i : Nat} (h₀ : i ≠ 0) (h₁₉ : i ≠ 19) (adress : Nat) (row : Memory) :
    pollRow adress row i = row i := by
  rw [pollRow, sealRow_of_ne h₁₉, Function.update_of_ne h₀]

theorem messageFromBKD_step (s : State) (e : Event) (r : Nat) :
    (step s e).messageFromBKD r =
      match e with
      | .tick => if r = s.counters.next.currentBKD then pollRow s.counters.next.address (s.messageFromBKD r)
          else s.messageFromBKD r
      | .frame _ _ => s.messageFromBKD r
      | .request m => if r < 13 then sealRow 15 (commandRow m r (s.messageFromBKD r)) else s.messageFromBKD r := by
  cases e with
  | tick =>
    simp only [step]
    rw [messageFromBKD_qwertyAllDevice]
    by_cases hr : r = s.counters.next.currentBKD
    · rw [if_pos hr, applyRowStores_row (by simp [RowStore.row, hr])]
      rfl
    · rw [if_neg hr, applyRowStores_of_ne (by simpa [RowStore.row] using Ne.symm hr)]
  | frame message size => rfl
  | request m => exact applyRowStores_yvRows m s.messageFromBKD r

/-- Between the mask and the checksums, the bytes that no step writes stay zero. -/
theorem row_eq_zero (evs : List Event) (r : Nat) {i : Nat} (h : i = 3 ∨ 8 ≤ i ∧ i < 15 ∨ 16 ≤ i ∧ i < 19) :
    (after evs).messageFromBKD r i = 0 := by
  have hstep : ∀ s e, s.messageFromBKD r i = 0 → (step s e).messageFromBKD r i = 0 := by
    intro s e hs
    rw [messageFromBKD_step]
    cases e with
    | tick =>
      dsimp only
      split_ifs
      · rw [pollRow_of_ne (by omega) (by omega), hs]
      · exact hs
    | frame message size => exact hs
    | request m =>
      dsimp only
      split_ifs
      · rw [sealRow_of_ne (by omega), commandRow_of_ne (by omega), hs]
      · exact hs
  exact Machine.run_invariant hstep rfl evs

/-! ### The frame of a slot -/

theorem row_of_no_request (s : State) (message : Memory) {evs : List Event} (h : ∀ e ∈ evs, ∀ m, e ≠ .request m)
    {b i : Nat} (hb : b < 13) (hi : i ≠ 0 ∧ i ≠ 19) :
    (Machine.run step (step s (.request message)) evs).messageFromBKD b i =
      sealRow 15 (commandRow message b (s.messageFromBKD b)) i := by
  have hframe : ∀ (s : State) e, (∀ m, e ≠ .request m) →
      (step s e).messageFromBKD b i = s.messageFromBKD b i := by
    intro s e he
    rw [messageFromBKD_step]
    cases e with
    | tick =>
      dsimp only
      split_ifs
      · rw [pollRow_of_ne hi.1 hi.2]
      · rfl
    | frame m size => rfl
    | request m => exact absurd rfl (he m)
  have hrun := @Machine.run_frame _ _ step _ (fun s => s.messageFromBKD b i) _ hframe _ h (step s (.request message))
  rw [hrun, messageFromBKD_step]
  simp only [hb, if_true]

/-- A poll tick makes the same frame of rows that differ only in what it writes. -/
theorem pollRow_congr {row row' : Memory} (h : ∀ i, i ≠ 0 ∧ i ≠ 19 → row i = row' i) (adress : Nat) :
    pollRow adress row = pollRow adress row' := by
  have hbelow : ∀ i, i ≠ 19 → Function.update row 0 (BitVec.ofNat 8 adress) i =
      Function.update row' 0 (BitVec.ofNat 8 adress) i := by
    intro i hi
    by_cases h0 : i = 0
    · simp [h0]
    · simp [h0, h i ⟨h0, hi⟩]
  funext i
  by_cases h19 : i = 19
  · simp only [h19, pollRow, sealRow, Function.update_self]
    exact crc8_congr fun i hi => hbelow i (Nat.ne_of_lt hi)
  · simp only [pollRow, sealRow_of_ne h19]
    exact hbelow i h19

/-- The frame that a poll tick sends in a slot before that of the servos, in terms of the last request and of
    the row before it. -/
theorem frame_eq (s : State) (message : Memory) {evs : List Event} (h : ∀ e ∈ evs, ∀ m, e ≠ .request m) {b : Nat}
    (hb : b < 13) (hslot : (Machine.run step s (.request message :: evs ++ [.tick])).counters.currentBKD = b) :
    (Machine.run step s (.request message :: evs ++ [.tick])).messageFromBKD b =
      pollRow (Machine.run step s (.request message :: evs ++ [.tick])).counters.address
        (sealRow 15 (commandRow message b (s.messageFromBKD b))) := by
  rw [Machine.run_concat, counters_step] at hslot ⊢
  rw [messageFromBKD_step]
  simp only [if_pos hslot.symm]
  exact pollRow_congr (fun i hi => row_of_no_request s message h hb hi) _

end YlsFirmware
