import YlsFirmware.Theorems.Replies

/-! # Bounds of the stored replies

The arrays of the packet to YV have a row for each of the 12 BKD. In the slots of the BKD and of the BKHO-A
every index a handler evaluates is in bounds, so nothing but the selected device's data changes. In the slot of
the servos the handler of the BKD stores at row 13. -/

namespace YlsFirmware
open Packed

/-- The shift lands in the field, or the element exists and has the size that is stored. -/
def Store.Safe : Store → Prop
  | .clear f n | .set f n => n < f.width
  | .byte e _ => ylsToYVData.InBounds e ∧ ylsToYVData.unit e.field = 1
  | .half e _ => ylsToYVData.InBounds e ∧ ylsToYVData.unit e.field = 2

def Store.elem? : Store → Option (Elem YLSToYVField)
  | .clear _ _ | .set _ _ => none
  | .byte e _ | .half e _ => some e

/-- The element is data of another BKD than the one of the slot, or an angle of the servos, or of `yvp_data`. -/
def Foreign (c : Counters) (e : Elem YLSToYVField) : Prop :=
  e.field = .outYkpAngle ∨ e.field = .yvpData ∨
    e.field ∈ [.ykpAngle, .yazData, .ypsMask, .ylk96Data] ∧ e.index.head? ≠ some c.currentBKD

/-- The frame is stored within the arrays, and data that belong to others stay as they are. -/
structure StoredSafely (s : State) (message : Memory) (size : Nat) : Prop where
  safe : ∀ w ∈ replyStores s.counters message size, w.Safe
  foreign : ∀ e, ylsToYVData.InBounds e → Foreign s.counters e → ∀ o, ylsToYVData.Covers e o →
    (checkMessageUART s message size).ylsToYVPack s.currentTickTxEth o = s.ylsToYVPack s.currentTickTxEth o

/-! ### Assignments in bounds -/

theorem applyStores_of_forall {ws : List Store} {o : Nat} (h : ∀ w ∈ ws, ∀ pk, w.apply pk o = pk o) (pk : Memory) :
    applyStores ws pk o = pk o := by
  induction ws generalizing pk with
  | nil => rfl
  | cons w ws ih =>
    rw [applyStores_cons, ih fun w' hw' => h w' (List.mem_cons_of_mem _ hw'), h w List.mem_cons_self]

/-- An assignment in bounds changes its element or the health map only. -/
theorem Store.Safe.apply_eq {w : Store} (hw : w.Safe) {o : Nat} (ho : 22 ≤ o)
    (helem : ∀ e, w.elem? = some e → ¬ ylsToYVData.Covers e o) (pk : Memory) : w.apply pk o = pk o := by
  cases w with
  | clear f n => exact apply_clear_of_ge ho
  | set f n => exact apply_set_of_ge ho
  | byte e v =>
    have hno := helem e rfl
    rw [Struct.Covers, hw.2] at hno
    exact write_outside hno
  | half e v =>
    have hno := helem e rfl
    rw [Struct.Covers, hw.2] at hno
    exact write_outside hno

theorem Foreign.offset_ge {c : Counters} {e : Elem YLSToYVField} (h : Foreign c e) {o : Nat}
    (ho : ylsToYVData.Covers e o) : 22 ≤ o := by
  have hoff : ∀ f : YLSToYVField, f ≠ .healthAbonent → 22 ≤ offset ylsToYVData.size ylsToYVData.members f := by
    intro f hf
    cases f <;> first | exact absurd rfl hf | decide
  have hf : e.field ≠ .healthAbonent := by
    intro hf
    simp [Foreign, hf] at h
  exact Nat.le_trans (hoff _ hf) (Nat.le_trans (Nat.le_add_right _ _) ho.1)

/-! ### Slots of the BKD and of the BKHO-A -/

theorem safe_bkdStores {b j : Nat} (hb : b < 12) (hj : j < 12) (message : Memory) :
    ∀ w ∈ bkdStores b j message, w.Safe := by
  unfold bkdStores
  split_ifs
  · simp [Store.Safe, Struct.InBounds, ylsToYVData, hb]
    omega
  · simp [Store.Safe, Struct.InBounds, ylsToYVData, hb]
    omega
  · simp [Store.Safe, Struct.InBounds, ylsToYVData, hb]
    omega
  · simp [Store.Safe, Struct.InBounds, ylsToYVData, hb]
    omega

theorem safe_stores {d : Device} (message : Memory) : ∀ w ∈ d.stores message, w.Safe := by
  cases d with
  | bkd b j => exact safe_bkdStores b.isLt j.isLt message
  | bkhoA u =>
    simp only [Device.stores]
    split_ifs with h
    · simp [Store.Safe, Struct.InBounds, ylsToYVData, h]
    · simp
  | outServo k => simp [Device.stores]

theorem not_foreign_stores {c : Counters} {d : Device} (h : c.Selects d) (message : Memory) :
    ∀ w ∈ d.stores message, ∀ e, w.elem? = some e → ¬ Foreign c e := by
  cases d with
  | bkd b j =>
    have hb := (selects_bkd_iff.mp h).1
    simp only [Device.stores, bkdStores]
    split_ifs <;> simp [Store.elem?, Foreign, hb]
  | bkhoA u =>
    simp only [Device.stores]
    split_ifs <;> simp [Store.elem?, Foreign]
  | outServo k => simp [Device.stores]

theorem storedSafely_selects {s : State} {d : Device} (h : s.counters.Selects d) (hs : s.counters.currentBKD ≠ 13)
    (message : Memory) (size : Nat) : StoredSafely s message size := by
  have hsafe : ∀ w ∈ replyStores s.counters message size, w.Safe := by
    rw [replyStores_selects message size h hs]
    split_ifs
    · intro w hw
      rcases List.mem_cons.mp hw with rfl | hw
      · exact d.index_lt_width
      · exact safe_stores message w hw
    · nofun
  have helem : ∀ w ∈ replyStores s.counters message size, ∀ e, w.elem? = some e → ¬ Foreign s.counters e := by
    rw [replyStores_selects message size h hs]
    split_ifs
    · intro w hw
      rcases List.mem_cons.mp hw with rfl | hw
      · nofun
      · exact not_foreign_stores h message w hw
    · nofun
  refine ⟨hsafe, fun e he hf o ho => ?_⟩
  rw [checkMessageUART, State.ylsToYVPack_store, if_pos rfl]
  refine applyStores_of_forall (fun w hw => (hsafe w hw).apply_eq (hf.offset_ge ho) fun e' he' ho' => ?_) _
  have hin : ylsToYVData.InBounds e' := by
    have := hsafe w hw
    cases w <;> cases he' <;> exact this.1
  exact helem w hw e' he' (Struct.eq_of_covers he hin ho ho' ▸ hf)

/-! ### All slots -/

theorem storedSafely_of_nil {s : State} {message : Memory} {size : Nat}
    (h : replyStores s.counters message size = []) : StoredSafely s message size := by
  refine ⟨by rw [h]; nofun, fun e _ _ o _ => ?_⟩
  rw [checkMessageUART, State.ylsToYVPack_store, if_pos rfl, h, applyStores_nil]

/-- An accepted frame is stored within the arrays, and leaves alone what belongs to others, unless it is a
    32-byte frame in the slot of the servos. -/
theorem storedSafely_iff {s : State} (h : Reachable s) {message : Memory} {size : Nat}
    (ha : Accepts message size) :
    StoredSafely s message size ↔ ¬ (s.counters.currentBKD = 13 ∧ size = 32) := by
  constructor
  · rintro hsafe ⟨h13, hsize⟩
    obtain ⟨j, hj⟩ := exists_device h.inRange
    have hstores := replyStores_outServo message size h13 hj 0
    rw [if_pos ⟨ha, hsize⟩] at hstores
    have hlt := hsafe.safe (.set (Device.bkd 0 j).field 13) (hstores ▸ List.mem_cons_self)
    rw [Store.Safe, Device.width_bkd] at hlt
    omega
  · intro hno
    rcases slot_cases h.inRange with h13 | ⟨h12, hadr⟩ | ⟨d, hd, h13⟩
    · exact storedSafely_of_nil (replyStores_of_not_answers h.inRange fun hans => hno ⟨h13, hans.2⟩)
    · exact storedSafely_of_nil (replyStores_of_lt message size h12 hadr)
    · exact storedSafely_selects hd h13 message size

/-- In the first slot of the servos, 13 poll ticks after boot, a 32-byte frame overruns the arrays: the angles of
    device 1 of a BKD are stored in those of the servos. -/
theorem not_storedSafely_servo_slot :
    ¬ StoredSafely (after (List.replicate 13 .tick)) (sealFrame (fun _ => 1#8) 32) 32 := by
  have hcounters : (after (List.replicate 13 .tick)).counters = ⟨13, 1, 2, 2⟩ := by
    rw [counters_ticks]
    decide +kernel
  have hans : Answers (sealFrame (fun _ => 1#8) 32) 32 := answers_sealFrame _
  intro h
  have hbyte := h.foreign ⟨.outYkpAngle, [6]⟩ (by simp [Struct.InBounds, ylsToYVData]) (.inl rfl) 225
    ⟨by decide, by decide⟩
  rw [ticks_of_ge (by decide), checkMessageUART, State.ylsToYVPack_store, if_pos rfl, hcounters,
    replyStores_outServo (j := 0) _ _ rfl rfl 0, if_pos hans, applyStores_cons, applyStores_bkdStores] at hbyte
  exact absurd hbyte (by decide)

theorem storedSafely_first_slot : StoredSafely (after [.tick]) (sealFrame (fun _ => 1#8) 32) 32 :=
  (storedSafely_iff ⟨[.tick], rfl⟩ (accepts_sealFrame _ (by decide))).mpr (by decide)

end YlsFirmware
