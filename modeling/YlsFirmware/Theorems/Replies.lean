import YlsFirmware.Theorems.Switches

/-! # Replies

What a received frame stores, slot by slot, and what that does to the packet: an accepted 32-byte frame sets
the health bit of the selected device and stores the payload in its entry. In the slot of the outer servos it
goes to `Check_message_BKD` with 13 for the number of the BKD. -/

namespace YlsFirmware
open Packed

/-- The frame is accepted and has the length that the handlers of the replies test for. -/
def Answers (message : Memory) (size : Nat) : Prop := Accepts message size ∧ size = 32

instance (message : Memory) (size : Nat) : Decidable (Answers message size) := inferInstanceAs (Decidable (_ ∧ _))

def sealFrame (message : Memory) (size : Nat) : Memory :=
  Function.update message (size - 1) (crc8 message (size - 1))

theorem accepts_sealFrame (message : Memory) {size : Nat} (h : 1 < size) : Accepts (sealFrame message size) size := by
  refine ⟨h, ?_⟩
  rw [sealFrame, Function.update_self]
  refine crc8_congr fun i hi => ?_
  rw [Function.update_of_ne (Nat.ne_of_lt hi)]

theorem answers_sealFrame (message : Memory) : Answers (sealFrame message 32) 32 :=
  ⟨accepts_sealFrame message (by decide), rfl⟩

/-- The data that `Check_message_BKD` stores for device `j` of BKD `b`. -/
def bkdStores (b j : Nat) (message : Memory) : List Store :=
  if j < 3 then
    [.half ⟨.ykpAngle, [b, j, 0]⟩ (word message 0), .half ⟨.ykpAngle, [b, j, 1]⟩ (word message 2)]
  else if j < 6 then (List.range 24).map fun i => .byte ⟨.yazData, [b, j - 3, i]⟩ (message i)
  else if j < 9 then [.byte ⟨.ypsMask, [b, j - 6]⟩ (message 0)]
  else (List.range 24).map fun i => .byte ⟨.ylk96Data, [b, j - 9, i]⟩ (message i)

def Device.stores : Device → Memory → List Store
  | bkd b j, message => bkdStores b j message
  | bkhoA u, message => if (u : Nat) < 3 then [.byte ⟨.ypsMaskBKHOA, [u]⟩ (message 0)] else []
  | outServo _, _ => []

/-! ### The arms of the switches -/

section Arms
variable {c : Counters} (message : Memory) (size : Nat)

theorem checkMessageBKD_eq {j : Fin 12} (h : c.currentDeviceInBKDx = j + 1) (b : Fin 12) :
    checkMessageBKD c message size =
      if size = 32 then .set (Device.bkd b j).field c.currentBKD :: bkdStores c.currentBKD j message else [] := by
  unfold checkMessageBKD
  rw [h]
  fin_cases j <;> rfl

theorem checkMessageBKHOA_eq {u : Fin 24} (h : c.currentDeviceInBKHOA = 145 + u) :
    checkMessageBKHOA c message size =
      if size = 32 then .set (Device.bkhoA u).field 0 :: (Device.bkhoA u).stores message else [] := by
  unfold checkMessageBKHOA
  rw [h]
  fin_cases u <;> rfl

theorem checkMessageBKHOA_eq_nil (h : c.currentDeviceInBKHOA < 145) : checkMessageBKHOA c message size = [] :=
  @switch_eq_nil _ 145 24 _ rfl h

theorem replyStores_eq :
    replyStores c message size = if Accepts message size then (handler c).stores c message size else [] := by
  unfold replyStores handedTo
  split_ifs <;> rfl

theorem handler_of_ne (h : c.currentBKD ≠ 12) : handler c = .checkMessageBKD := if_pos h

theorem handler_bkhoA (h : c.currentBKD = 12) : handler c = .checkMessageBKHOA := by
  simp [handler, h, inTotalBKD]

theorem ite_answers (ws : List Store) :
    (if Accepts message size then if size = 32 then ws else [] else []) =
      if Answers message size then ws else [] := by
  by_cases h₁ : Accepts message size <;> by_cases h₂ : size = 32 <;> simp [Answers, h₁, h₂]

/-- Outside the slot of the servos, a frame is stored as the reply of the selected device. -/
theorem replyStores_selects {d : Device} (h : c.Selects d) (hs : c.currentBKD ≠ 13) :
    replyStores c message size =
      if Answers message size then .set d.field d.index :: d.stores message else [] := by
  rw [replyStores_eq, ← ite_answers]
  cases d with
  | bkd b j =>
    obtain ⟨h₁, h₂⟩ := selects_bkd_iff.mp h
    have hb := b.isLt
    rw [handler_of_ne (by omega), Handler.stores, checkMessageBKD_eq message size h₂ b, h₁]
    rfl
  | bkhoA u =>
    obtain ⟨h₁, h₂⟩ := selects_bkhoA_iff.mp h
    rw [handler_bkhoA h₁, Handler.stores, checkMessageBKHOA_eq message size h₂]
    rfl
  | outServo k => exact absurd (selects_outServo_iff.mp h).1 hs

/-- In the slot of the BKHO-A, a frame is dropped before its devices are addressed. -/
theorem replyStores_of_lt (hs : c.currentBKD = 12) (h : c.currentDeviceInBKHOA < 145) :
    replyStores c message size = [] := by
  rw [replyStores_eq, handler_bkhoA hs, Handler.stores, checkMessageBKHOA_eq_nil message size h, ite_self]

/-- In the slot of the servos, a frame is stored as the reply of a BKD numbered 13. -/
theorem replyStores_outServo (hs : c.currentBKD = 13) {j : Fin 12} (h : c.currentDeviceInBKDx = j + 1) (b : Fin 12) :
    replyStores c message size =
      if Answers message size then .set (Device.bkd b j).field 13 :: bkdStores 13 j message else [] := by
  rw [replyStores_eq, ← ite_answers, handler_of_ne (by omega), Handler.stores,
    checkMessageBKD_eq message size h b, hs]

theorem replyStores_of_not_answers (hc : c.InRange) {message : Memory} {size : Nat} (h : ¬ Answers message size) :
    replyStores c message size = [] := by
  rcases slot_cases hc with h13 | ⟨h12, hadr⟩ | ⟨d, hd, hs⟩
  · obtain ⟨j, hj⟩ := exists_device hc
    rw [replyStores_outServo message size h13 hj 0, if_neg h]
  · exact replyStores_of_lt message size h12 hadr
  · rw [replyStores_selects message size hd hs, if_neg h]

end Arms

/-! ### What is read of a frame -/

theorem Answers.congr {message message' : Memory} {size : Nat} (h : ∀ i < size, message i = message' i)
    (ha : Answers message size) : Answers message' size := by
  obtain ⟨⟨hlt, hcrc⟩, h32⟩ := ha
  have hbelow : ∀ i < size - 1, message i = message' i := fun i hi => h i (Nat.lt_of_lt_of_le hi (Nat.sub_le _ _))
  exact ⟨⟨hlt, by rw [← h _ (Nat.sub_one_lt_of_lt hlt), hcrc, crc8_congr hbelow]⟩, h32⟩

theorem bkdStores_congr {message message' : Memory} (h : ∀ i < 32, message i = message' i) (b j : Nat) :
    bkdStores b j message = bkdStores b j message' := by
  have hbyte : ∀ i < 24, message i = message' i := fun i hi => h i (Nat.lt_trans hi (by decide))
  have hword : ∀ i < 4, word message i = word message' i := fun i hi => by
    rw [word, word, h i (by omega), h (i + 1) (by omega)]
  unfold bkdStores
  split_ifs
  · rw [hword 0 (by decide), hword 2 (by decide)]
  · exact List.map_congr_left fun i hi => by rw [hbyte i (List.mem_range.mp hi)]
  · rw [h 0 (by decide)]
  · exact List.map_congr_left fun i hi => by rw [hbyte i (List.mem_range.mp hi)]

theorem Device.stores_congr (d : Device) {message message' : Memory} (h : ∀ i < 32, message i = message' i) :
    d.stores message = d.stores message' := by
  cases d with
  | bkd b j => exact bkdStores_congr h b j
  | bkhoA u => simp only [Device.stores, h 0 (by decide)]
  | outServo k => rfl

/-- What a frame stores depends on its own bytes only, not on what is behind them in the buffer. -/
theorem replyStores_congr {c : Counters} (hc : c.InRange) {message message' : Memory} {size : Nat}
    (h : ∀ i < size, message i = message' i) : replyStores c message size = replyStores c message' size := by
  by_cases ha : Answers message size
  · have ha' : Answers message' size := ha.congr h
    have h32 : ∀ i < 32, message i = message' i := fun i hi => h i (ha.2.symm ▸ hi)
    rcases slot_cases hc with h13 | ⟨h12, hadr⟩ | ⟨d, hd, hs⟩
    · obtain ⟨j, hj⟩ := exists_device hc
      rw [replyStores_outServo message size h13 hj 0, replyStores_outServo message' size h13 hj 0, if_pos ha,
        if_pos ha', bkdStores_congr h32]
    · rw [replyStores_of_lt message size h12 hadr, replyStores_of_lt message' size h12 hadr]
    · rw [replyStores_selects message size hd hs, replyStores_selects message' size hd hs, if_pos ha, if_pos ha',
        d.stores_congr h32]
  · have ha' : ¬ Answers message' size := fun ha' => ha (ha'.congr fun i hi => (h i hi).symm)
    rw [replyStores_of_not_answers hc ha, replyStores_of_not_answers hc ha']

/-! ### The data in the packet -/

theorem applyStores_bytes {e : Nat → Elem YLSToYVField} {a n : Nat} (h : ∀ i < n, ylsToYVData.addr (e i) = a + i)
    (message pk : Memory) :
    applyStores ((List.range n).map fun i => .byte (e i) (message i)) pk =
      write pk a ((List.range n).map message) := by
  induction n with
  | zero => simp
  | succ n ih =>
    have hn : ylsToYVData.addr (e n) = a + ((List.range n).map message).length := by
      rw [h n (Nat.lt_succ_self n), List.length_map, List.length_range]
    rw [List.range_succ, List.map_append, applyStores_append, ih fun i hi => h i (Nat.lt_succ_of_lt hi),
      List.map_append, ← write_write_append, ← hn]
    rfl

theorem bytes16_word (message : Memory) (i : Nat) : bytes16 (word message i) = [message (i + 1), message i] := by
  have hlo : (word message i).setWidth 8 = message (i + 1) := by
    apply BitVec.eq_of_getLsbD_eq
    intro k hk
    simp only [word, BitVec.getLsbD_setWidth, BitVec.getLsbD_or, BitVec.getLsbD_shiftLeft, hk]
    simp [show k < 16 by omega]
  have hhi : (word message i >>> 8).setWidth 8 = message i := by
    apply BitVec.eq_of_getLsbD_eq
    intro k hk
    simp only [word, BitVec.getLsbD_setWidth, BitVec.getLsbD_ushiftRight, BitVec.getLsbD_or,
      BitVec.getLsbD_shiftLeft, hk]
    simp [show 8 + k < 16 by omega, show k < 16 by omega]
  rw [bytes16, hlo, hhi]

/-- The data of a reply fill the entry, also for the BKD number 13. -/
theorem applyStores_bkdStores (b j : Nat) (message pk : Memory) :
    applyStores (bkdStores b j message) pk =
      write pk (ylsToYVData.addr (Device.bkdElem b j)) (Device.bkdPayload j message) := by
  unfold bkdStores Device.bkdElem Device.bkdPayload
  split_ifs
  · have h : ylsToYVData.addr ⟨.ykpAngle, [b, j, 1]⟩ =
        ylsToYVData.addr ⟨.ykpAngle, [b, j, 0]⟩ + (bytes16 (word message 0)).length := by
      rw [addr_ykpAngle, addr_ykpAngle, length_bytes16]
    rw [applyStores_cons, applyStores_cons, applyStores_nil, Store.apply, Store.apply, h, write_write_append,
      bytes16_word, bytes16_word]
    rfl
  · exact applyStores_bytes (fun i _ => by rw [addr_yazData, addr_yazData]; rfl) message pk
  · rfl
  · exact applyStores_bytes (fun i _ => by rw [addr_ylk96Data, addr_ylk96Data]; rfl) message pk

theorem Device.applyStores_stores (d : Device) (message pk : Memory) :
    applyStores (d.stores message) pk = write pk d.entry (d.payload message) := by
  cases d with
  | bkd b j => exact applyStores_bkdStores b j message pk
  | bkhoA u =>
    simp only [Device.stores, Device.payload]
    split_ifs
    · rfl
    · simp
  | outServo k => simp [Device.stores, Device.payload]

/-! ### Health bits and data are apart -/

theorem apply_set_of_ge {f : HealthField} {n o : Nat} {pk : Memory} (h : 22 ≤ o) :
    (Store.set f n).apply pk o = pk o :=
  BitField.put_of_ge f.bits pk (Nat.le_trans f.bits_end_le (Nat.mul_le_mul_left 8 h)) _

theorem addr_bkdElem_ge (b j : Nat) : 33 ≤ ylsToYVData.addr (Device.bkdElem b j) := by
  unfold Device.bkdElem
  split_ifs
  · rw [addr_ykpAngle]
    omega
  · rw [addr_yazData]
    omega
  · rw [addr_ypsMask]
    omega
  · rw [addr_ylk96Data]
    omega

theorem Device.entry_ge {d : Device} {message : Memory} (h : d.payload message ≠ []) : 30 ≤ d.entry := by
  cases d with
  | bkd b j => exact Nat.le_trans (by decide) (addr_bkdElem_ge b j)
  | bkhoA u => exact Nat.le_add_right 30 _
  | outServo k => exact absurd rfl h

theorem bit_stores (d : Device) (message pk : Memory) {n : Nat} (h : n < 8 * 22) :
    bit (applyStores (d.stores message) pk) n = bit pk n := by
  rw [Device.applyStores_stores]
  by_cases hp : d.payload message = []
  · rw [hp, write_nil]
  · have := Device.entry_ge hp
    exact bit_write_of_lt (by omega)

theorem bit_set (d d' : Device) (pk : Memory) :
    bit ((Store.set d'.field d'.index).apply pk) d.healthBit = (bit pk d.healthBit || decide (d = d')) := by
  rw [bit_set_healthBit]
  simp only [Device.healthBit_inj_iff]

/-- `1 << 13` lies outside the fields of the BKD. -/
theorem bit_set_thirteen (b j : Fin 12) (pk : Memory) (n : Nat) :
    bit ((Store.set (Device.bkd b j).field 13).apply pk) n = bit pk n := by
  rw [Store.apply, BitField.bit_orBit (HealthField.width_le _)]
  have hw : ¬ 13 < (Device.bkd b j).field.bits.width := by
    have h := Device.width_bkd b j
    simp only [HealthField.bits]
    omega
  simp [hw]

theorem bit_replyStores {c : Counters} (hc : c.InRange) (d : Device) (message : Memory) (size : Nat) (pk : Memory) :
    bit (applyStores (replyStores c message size) pk) d.healthBit =
      (bit pk d.healthBit || decide (Answers message size ∧ c.currentBKD ≠ 13 ∧ c.Selects d)) := by
  have hlt := d.healthBit_lt
  rcases slot_cases hc with h13 | ⟨h12, hadr⟩ | ⟨d', hd', hs⟩
  · obtain ⟨j, hj⟩ := exists_device hc
    have hge := addr_bkdElem_ge 13 j
    rw [replyStores_outServo message size h13 hj 0]
    split_ifs with ha
    · rw [applyStores_cons, applyStores_bkdStores, bit_write_of_lt (by omega), bit_set_thirteen]
      simp [h13]
    · simp [ha]
  · rw [replyStores_of_lt message size h12 hadr]
    simp [not_selects_of_lt h12 hadr d]
  · rw [replyStores_selects message size hd' hs]
    split_ifs with ha
    · rw [applyStores_cons, bit_stores d' message _ hlt, bit_set]
      simp [ha, hs, hd'.eq_iff]
    · simp [ha]

end YlsFirmware
