import YlsFirmware.Lib.Transfer
import YlsFirmware.Preemption
import YlsFirmware.Theorems.Rows

/-! # Command frames under preemption

A frame is made of one packet from YV if the poll does not come between the stores of the fields of its row, and the
row is not written to where it is still to be sent. Nothing in the firmware sees to either. -/

namespace YlsFirmware
open Packed

/-- The columns of the command, of the mask and of the angles. -/
def commandColumns : List Nat := [1, 2, 4, 5, 6, 7]

/-- What a request for `rxpak` puts into such a column of row `b`. -/
def commandByte (rxpak : Memory) (b c : Nat) : Byte := commandRow rxpak b (fun _ => 0) c

/-- The fields of the row are those of one packet that has been received, or the initial zeros. -/
def Whole (received : List Memory) (b : Nat) (row : Memory) : Prop :=
  (∃ m ∈ received, ∀ c ∈ commandColumns, row c = commandByte m b c) ∨ ∀ c ∈ commandColumns, row c = 0

/-- The frame has its checksum, and its fields are those of one packet. -/
structure Consistent (received : List Memory) (b : Nat) (frame : Memory) : Prop where
  src : frame (usartBufferTxSizeYLS - 1) = crc8 frame (usartBufferTxSizeYLS - 1)
  whole : Whole received b frame

def BusEvent.packet : BusEvent → Option Memory
  | .receive message => some message
  | _ => none

/-- The packets received from YV. -/
def received (evs : List BusEvent) : List Memory := evs.filterMap BusEvent.packet

/-- In every state of the run, a frame that has been sent to a BKD is consistent. -/
def Snapshots (evs : List BusEvent) : Prop :=
  ∀ as bs, evs = as ++ bs → ∀ x, Machine.exec busStep .init as = some x → ∀ t, x.sending = some t →
    t.row < inTotalBKD → t.sent.length = usartBufferTxSizeYLS → Consistent (received as) t.row (ofBytes t.sent)

def RowStore.col : RowStore → Nat
  | .byte _ c _ => c
  | .crc _ n => n

def RowStore.place (w : RowStore) : Nat × Nat := (w.row, w.col)

/-- A store to column `c` of row `b` is among those still to be made. -/
def Pending (ws : List RowStore) (b c : Nat) : Prop := (b, c) ∈ ws.map RowStore.place

instance (ws : List RowStore) (b c : Nat) : Decidable (Pending ws b c) := inferInstanceAs (Decidable (_ ∈ _))

/-- A poll of a BKD comes before the fields of its row are stored or after that, or those still to be stored are there
    already. A store to the row that is being sent comes when its column has been read, or is there already. -/
def Undisturbed (x : Bus) : BusEvent → Prop
  | .tick => ∀ ws, x.running = some ws → let b := x.app.counters.next.currentBKD
      b < inTotalBKD → (∀ c ∈ commandColumns, Pending ws b c) ∨
        ∀ w ∈ ws, w.row = b → w.col ∈ commandColumns → w.on (x.app.messageFromBKD b) = x.app.messageFromBKD b
  | .store => ∀ w ws t, x.running = some (w :: ws) → x.sending = some t → t.row < inTotalBKD → w.row = t.row →
      t.sent.length ≤ w.col → w.on (x.app.messageFromBKD t.row) = x.app.messageFromBKD t.row
  | _ => True

/-! ### The stores of a request -/

theorem RowStore.on_of_ne {w : RowStore} {i : Nat} (h : i ≠ w.col) (row : Memory) : w.on row i = row i := by
  cases w <;> exact Function.update_of_ne h _ _

theorem RowStore.apply_eq (w : RowStore) (rows : Nat → Memory) (r : Nat) :
    w.apply rows r = if w.row = r then w.on (rows r) else rows r := by
  have hw := @applyRowStores_row [w] r
  have hne := @applyRowStores_of_ne [w] r
  split_ifs with h
  · exact hw (by simpa using h) rows
  · exact hne (by simpa using h) rows

theorem mem_yvRow {m : Memory} {w : RowStore} (h : w ∈ yvRows m) : w ∈ yvRow m w.row := by
  obtain ⟨i, -, hi⟩ := List.mem_flatMap.mp h
  rwa [row_yvRow m i w hi]

/-- A store of a request to the column of a field puts the byte of the packet there. -/
theorem on_of_mem {m : Memory} {w : RowStore} (h : w ∈ yvRows m) (hcol : w.col ∈ commandColumns) (row : Memory) :
    w.on row w.col = commandByte m w.row w.col := by
  have hmem := mem_yvRow h
  generalize w.row = b at hmem ⊢
  simp only [yvRow, yvColumns, List.map_cons, List.map_nil, List.cons_append, List.nil_append, List.mem_cons,
    List.not_mem_nil, or_false] at hmem
  rcases hmem with rfl | rfl | rfl | rfl | rfl | rfl | rfl
  case inr.inr.inr.inr.inr.inr => exact absurd hcol (show 15 ∉ commandColumns by decide)
  all_goals
    simp only [RowStore.on, RowStore.col, Function.update_self]
    rfl

theorem place_yvRow (m : Memory) (b : Nat) :
    (yvRow m b).map RowStore.place = [1, 2, 4, 5, 6, 7, 15].map fun c => (b, c) := rfl

theorem nodup_yvRows (m : Memory) : ((yvRows m).map RowStore.place).Nodup := by
  rw [yvRows, List.map_flatMap]
  simp only [place_yvRow]
  decide

theorem pending_yvRows (m : Memory) {b c : Nat} (hb : b < inTotalBKD) (hc : c ∈ commandColumns) :
    Pending (yvRows m) b c := by
  have hcol : ∀ c ∈ commandColumns, c ∈ [1, 2, 4, 5, 6, 7, 15] := by decide
  rw [Pending, yvRows, List.map_flatMap]
  simp only [place_yvRow]
  exact List.mem_flatMap.mpr ⟨b, List.mem_range.mpr (Nat.lt_succ_of_lt hb), List.mem_map.mpr ⟨c, hcol c hc, rfl⟩⟩

theorem pending_cons_iff {w : RowStore} {ws : List RowStore} {b c : Nat} :
    Pending (w :: ws) b c ↔ w.row = b ∧ w.col = c ∨ Pending ws b c := by
  simp only [Pending, List.map_cons, List.mem_cons, RowStore.place, Prod.mk.injEq, eq_comm]

/-! ### Rows -/

theorem Whole.congr {recd : List Memory} {b : Nat} {row row' : Memory} (h : Whole recd b row)
    (hrow : ∀ c ∈ commandColumns, row' c = row c) : Whole recd b row' := by
  rcases h with ⟨m, hm, h⟩ | h
  · exact .inl ⟨m, hm, fun c hc => (hrow c hc).trans (h c hc)⟩
  · exact .inr fun c hc => (hrow c hc).trans (h c hc)

theorem Whole.mono {recd recd' : List Memory} {b : Nat} {row : Memory} (h : Whole recd b row)
    (hsub : ∀ m ∈ recd, m ∈ recd') : Whole recd' b row := by
  rcases h with ⟨m, hm, h⟩ | h
  · exact .inl ⟨m, hsub m hm, h⟩
  · exact .inr h

/-- A row between the stores of `Check_message_YV`: the fields still to be stored are those of an older packet, the
    others those of the packet that is being copied. -/
def Copying (recd : List Memory) (b : Nat) (row : Memory) : Option (List RowStore) → Prop
  | none => Whole recd b row
  | some ws => ∃ m ∈ recd, ws <:+ yvRows m ∧ ∃ old, Whole recd b old ∧
      ∀ c ∈ commandColumns, row c = if Pending ws b c then old c else commandByte m b c

section Rows
variable {recd : List Memory} {b : Nat} {row : Memory}

theorem Copying.congr {running : Option (List RowStore)} (h : Copying recd b row running) {row' : Memory}
    (hrow : ∀ c ∈ commandColumns, row' c = row c) : Copying recd b row' running := by
  cases running with
  | none => exact Whole.congr h hrow
  | some ws =>
    obtain ⟨m, hm, hsuffix, old, hold, h⟩ := h
    exact ⟨m, hm, hsuffix, old, hold, fun c hc => (hrow c hc).trans (h c hc)⟩

theorem Copying.start (h : Whole recd b row) (hb : b < inTotalBKD) (m : Memory) :
    Copying (recd ++ [m]) b row (some (yvRows m)) := by
  refine ⟨m, by simp, List.suffix_refl _, row, h.mono fun m' hm' => List.mem_append_left _ hm', fun c hc => ?_⟩
  rw [if_pos (pending_yvRows m hb hc)]

theorem Copying.finish (h : Copying recd b row (some [])) : Whole recd b row := by
  obtain ⟨m, hm, -, old, -, h⟩ := h
  exact .inl ⟨m, hm, fun c hc => (h c hc).trans (if_neg (by simp [Pending]))⟩

theorem Copying.store {w : RowStore} {ws : List RowStore} {rows : Nat → Memory}
    (h : Copying recd b (rows b) (some (w :: ws))) : Copying recd b (w.apply rows b) (some ws) := by
  obtain ⟨m, hm, hsuffix, old, hold, h⟩ := h
  refine ⟨m, hm, (List.suffix_cons w ws).trans hsuffix, old, hold, fun c hc => ?_⟩
  rw [RowStore.apply_eq]
  by_cases hrow : w.row = b
  · subst hrow
    rw [if_pos rfl]
    by_cases hcol : c = w.col
    · subst hcol
      have hnot : ¬ Pending ws w.row w.col := by
        have hnodup := (hsuffix.sublist.map RowStore.place).nodup (nodup_yvRows m)
        exact (List.nodup_cons.mp hnodup).1
      rw [if_neg hnot, on_of_mem (hsuffix.subset List.mem_cons_self) hc]
    · have hiff : Pending (w :: ws) w.row c ↔ Pending ws w.row c := by
        rw [pending_cons_iff]
        exact or_iff_right fun hplace => hcol hplace.2.symm
      rw [RowStore.on_of_ne hcol, h c hc]
      simp only [hiff]
  · have hiff : Pending (w :: ws) b c ↔ Pending ws b c := by
      rw [pending_cons_iff]
      exact or_iff_right fun hplace => hrow hplace.1
    rw [if_neg hrow, h c hc]
    simp only [hiff]

/-- Before the fields of a row are stored and after that the row is whole, also if what is still to be stored is there
    already. -/
theorem Copying.whole {running : Option (List RowStore)} (h : Copying recd b row running)
    (hq : ∀ ws, running = some ws → (∀ c ∈ commandColumns, Pending ws b c) ∨
      ∀ w ∈ ws, w.row = b → w.col ∈ commandColumns → w.on row = row) : Whole recd b row := by
  cases running with
  | none => exact h
  | some ws =>
    obtain ⟨m, hm, hsuffix, old, hold, h⟩ := h
    rcases hq ws rfl with hall | hsame
    · exact hold.congr fun c hc => (h c hc).trans (if_pos (hall c hc))
    · refine .inl ⟨m, hm, fun c hc => ?_⟩
      by_cases hpend : Pending ws b c
      · obtain ⟨w, hw, hplace⟩ := List.mem_map.mp hpend
        simp only [RowStore.place, Prod.mk.injEq] at hplace
        obtain ⟨rfl, rfl⟩ := hplace
        rw [← on_of_mem (hsuffix.subset hw) hc row, hsame w hw rfl hc]
      · rw [h c hc, if_neg hpend]

end Rows

/-! ### Steps -/

/-- The rows are whole but for the one that is being copied, and what has been sent of a row is the beginning of a
    consistent frame of which the row still holds the rest. -/
structure Bus.Inv (recd : List Memory) (x : Bus) : Prop where
  rows : ∀ b < inTotalBKD, Copying recd b (x.app.messageFromBKD b) x.running
  sending : ∀ t, x.sending = some t → t.row < inTotalBKD → ∃ frame, Consistent recd t.row frame ∧
    Transfer.Follows frame (x.app.messageFromBKD t.row) usartBufferTxSizeYLS t.sent

theorem Consistent.mono {recd recd' : List Memory} {b : Nat} {frame : Memory} (h : Consistent recd b frame)
    (hsub : ∀ m ∈ recd, m ∈ recd') : Consistent recd' b frame := ⟨h.src, h.whole.mono hsub⟩

theorem Consistent.congr {recd : List Memory} {b : Nat} {frame frame' : Memory} (h : Consistent recd b frame)
    (hframe : ∀ i < usartBufferTxSizeYLS, frame' i = frame i) : Consistent recd b frame' := by
  have hcolumn : ∀ c ∈ commandColumns, c < usartBufferTxSizeYLS := by decide
  have hbelow : ∀ i < usartBufferTxSizeYLS - 1, frame' i = frame i := fun i hi =>
    hframe i (Nat.lt_of_lt_of_le hi (Nat.sub_le _ _))
  exact ⟨by rw [hframe _ (by decide), h.src, crc8_congr hbelow], h.whole.congr fun c hc => hframe c (hcolumn c hc)⟩

theorem pollRow_column {c : Nat} (hc : c ∈ commandColumns) (adress : Nat) (row : Memory) :
    pollRow adress row c = row c := by
  have hne : ∀ c ∈ commandColumns, c ≠ 0 ∧ c ≠ 19 := by decide
  exact pollRow_of_ne (hne c hc).1 (hne c hc).2 adress row

theorem consistent_pollRow {recd : List Memory} {b : Nat} {row : Memory} (h : Whole recd b row) (adress : Nat) :
    Consistent recd b (pollRow adress row) :=
  ⟨sealRow_self _ _, h.congr fun _ hc => pollRow_column hc adress row⟩

section Step
variable {recd : List Memory} {x y : Bus} (h : x.Inv recd)
include h

theorem inv_receive {message : Memory} (hy : busStep x (.receive message) = some y) : y.Inv (recd ++ [message]) := by
  simp only [busStep] at hy
  split at hy
  case h_2 => cases hy
  case h_1 hidle =>
    cases hy
    constructor
    · intro b hb
      have hrow := h.rows b hb
      rw [hidle] at hrow
      exact Copying.start hrow hb message
    · intro t ht hb
      obtain ⟨frame, hframe, hfollows⟩ := h.sending t ht hb
      exact ⟨frame, hframe.mono fun m hm => List.mem_append_left _ hm, hfollows⟩

theorem inv_store (hq : Undisturbed x .store) (hy : busStep x .store = some y) : y.Inv recd := by
  simp only [busStep] at hy
  split at hy
  case h_1 w ws hrunning =>
    cases hy
    constructor
    · intro b hb
      have hrow := h.rows b hb
      rw [hrunning] at hrow
      exact hrow.store
    · intro t ht hb
      obtain ⟨frame, hframe, hfollows⟩ := h.sending t ht hb
      refine ⟨frame, hframe, hfollows.store fun i hi => ?_⟩
      change w.apply x.app.messageFromBKD t.row i = _
      rw [RowStore.apply_eq]
      split_ifs with hrow
      · by_cases hread : t.sent.length ≤ w.col
        · rw [hq w ws t hrunning ht hb hrow hread]
        · exact RowStore.on_of_ne (by omega) _
      · rfl
  case h_2 hrunning =>
    cases hy
    constructor
    · intro b hb
      have hrow := h.rows b hb
      rw [hrunning] at hrow
      exact hrow.finish
    · exact h.sending
  case h_3 => cases hy

theorem inv_tick (hq : Undisturbed x .tick) (hy : busStep x .tick = some y) : y.Inv recd := by
  cases hy
  have hrows : ∀ b, (qwertyAllDevice x.app).messageFromBKD b =
      if b = x.app.counters.next.currentBKD then pollRow x.app.counters.next.address (x.app.messageFromBKD b)
      else x.app.messageFromBKD b := messageFromBKD_step x.app .tick
  constructor
  · intro b hb
    refine (h.rows b hb).congr fun c hc => ?_
    rw [hrows]
    split_ifs
    · exact pollRow_column hc _ _
    · rfl
  · rintro t ht hb
    cases ht
    simp only [counters_qwertyAllDevice] at hb ⊢
    have hwhole : Whole recd _ (x.app.messageFromBKD x.app.counters.next.currentBKD) :=
      (h.rows _ hb).whole fun ws hws => hq ws hws hb
    refine ⟨_, consistent_pollRow hwhole x.app.counters.next.address, ?_⟩
    rw [hrows, if_pos rfl]
    exact Transfer.Follows.start _ _

theorem inv_dma (hy : busStep x .dma = some y) : y.Inv recd := by
  simp only [busStep] at hy
  split at hy
  case h_2 => cases hy
  case h_1 t ht =>
    split_ifs at hy with hlt
    cases hy
    refine ⟨h.rows, ?_⟩
    rintro t' ht' hb
    cases ht'
    obtain ⟨frame, hframe, hfollows⟩ := h.sending t ht hb
    exact ⟨frame, hframe, hfollows.read hlt⟩

theorem inv_step {e : BusEvent} (hq : Undisturbed x e) (hy : busStep x e = some y) :
    y.Inv (recd ++ e.packet.toList) := by
  have hsame : e.packet = none → y.Inv recd → y.Inv (recd ++ e.packet.toList) := by
    intro hnone hinv
    rwa [hnone, Option.toList_none, List.append_nil]
  cases e with
  | receive message => exact inv_receive h hy
  | store => exact hsame rfl (inv_store h hq hy)
  | tick => exact hsame rfl (inv_tick h hq hy)
  | frame message size =>
    cases hy
    exact hsame rfl ⟨h.rows, h.sending⟩
  | dma => exact hsame rfl (inv_dma h hy)

end Step

/-! ### Runs -/

theorem inv_init : Bus.init.Inv [] := ⟨fun _ _ => .inr fun _ _ => rfl, nofun⟩

theorem received_concat (evs : List BusEvent) (e : BusEvent) :
    received (evs ++ [e]) = received evs ++ e.packet.toList := by
  simp only [received, List.filterMap_append, List.filterMap_cons, List.filterMap_nil]
  cases e.packet <;> rfl

def UndisturbedRun (evs : List BusEvent) : Prop :=
  ∀ as e bs, evs = as ++ e :: bs → ∀ x, Machine.exec busStep .init as = some x → Undisturbed x e

theorem inv_exec {evs : List BusEvent} (h : UndisturbedRun evs) {x : Bus}
    (hx : Machine.exec busStep .init evs = some x) : x.Inv (received evs) := by
  induction evs using List.reverseRecOn generalizing x with
  | nil =>
    cases hx
    exact inv_init
  | append_singleton evs e ih =>
    rw [Machine.exec_concat, Option.bind_eq_some_iff] at hx
    obtain ⟨y, hy, hx⟩ := hx
    rw [received_concat]
    exact inv_step (ih (Machine.forall_of_append h) hy) (h evs e [] rfl y hy) hx

/-- In an undisturbed run every frame that is sent to a BKD is consistent. -/
theorem snapshots_of_undisturbed {evs : List BusEvent} (h : UndisturbedRun evs) : Snapshots evs := by
  rintro as bs rfl x hx t ht hb hlen
  have has : UndisturbedRun as := Machine.forall_of_append h
  obtain ⟨frame, hframe, hfollows⟩ := (inv_exec has hx).sending t ht hb
  refine hframe.congr fun i hi => ?_
  rw [hfollows.complete hlen]
  simp [ofBytes, List.getD_eq_getElem?_getD, hi]

/-- A packet with a command and a mask for BKD 1. -/
def packetTest : Memory := fun i => if i = 2 ∨ i = 77 then 1 else 0

/-- The first poll comes when row 1 has got the command and not yet the mask. -/
def tornRun : List BusEvent :=
  .receive packetTest :: List.replicate 8 .store ++ .tick :: List.replicate 20 .dma

def outcomeOf (evs : List BusEvent) : Option (Nat × Nat × Byte × Byte) :=
  (Machine.exec busStep .init evs).bind fun x => x.sending.map fun t =>
    (t.row, t.sent.length, ofBytes t.sent 1, ofBytes t.sent 2)

theorem not_snapshots_torn : ¬ Snapshots tornRun := by
  have hout : outcomeOf tornRun = some (1, 20, 1, 0) := by decide +kernel
  simp only [outcomeOf, Option.bind_eq_some_iff, Option.map_eq_some_iff, Prod.mk.injEq] at hout
  obtain ⟨x, hx, t, ht, hrow, hlen, hcommand, hmask⟩ := hout
  intro h
  have hwhole := (h tornRun [] (List.append_nil _).symm x hx t ht (hrow ▸ by decide) hlen).whole
  rw [hrow] at hwhole
  rcases hwhole with ⟨m, hm, hpacket⟩ | hzero
  · have hm : m = packetTest := List.mem_singleton.mp hm
    have htwo := hpacket 2 (by decide)
    rw [hmask, hm] at htwo
    exact absurd htwo (by decide)
  · have hone := hzero 1 (by decide)
    rw [hcommand] at hone
    exact absurd hone (by decide)

theorem snapshots_before_copy : Snapshots (.receive packetTest :: .tick :: List.replicate 20 .dma) := by
  refine snapshots_of_undisturbed fun as e bs hsplit x hx => ?_
  rcases as with _ | ⟨e₁, _ | ⟨e₂, as⟩⟩
  · cases hsplit
    trivial
  · cases hsplit
    cases hx
    intro ws hws b hb
    cases hws
    exact .inl fun c hc => pending_yvRows packetTest hb hc
  · simp only [List.cons_append, List.cons.injEq] at hsplit
    have he : e ∈ List.replicate 20 BusEvent.dma := hsplit.2.2 ▸ List.mem_append_right _ List.mem_cons_self
    rw [List.eq_of_mem_replicate he]
    trivial

end YlsFirmware
