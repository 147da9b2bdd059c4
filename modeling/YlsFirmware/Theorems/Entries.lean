import YlsFirmware.Theorems.Replies

/-! # Data entries

Where the entries of the devices lie, that they are disjoint, and what a frame does to the entry of a device:
an answer of the device replaces it, a frame in the slot of the servos may run into it, nothing else changes
it. -/

namespace YlsFirmware
open Packed

namespace Device

def data (d : Device) (pk : Memory) : List Byte := read pk d.entry d.size

theorem addr_bkdElem (b j : Nat) :
    ylsToYVData.addr (bkdElem b j) =
      if j < 3 then 69 + 12 * b + 4 * j
      else if j < 6 then 157 + 72 * b + 24 * j
      else if j < 9 then 27 + 3 * b + j
      else 1307 + 90 * b + 30 * j := by
  unfold bkdElem
  split_ifs
  · exact addr_ykpAngle b j 0
  · rw [addr_yazData]
    omega
  · rw [addr_ypsMask]
    omega
  · rw [addr_ylk96Data]
    omega

theorem length_bkdPayload (j : Nat) (message : Memory) :
    (bkdPayload j message).length = if j < 3 then 4 else if j < 6 then 24 else if j < 9 then 1 else 24 := by
  unfold bkdPayload
  split_ifs <;> simp

theorem extent_bkd (b j : Fin 12) :
    (bkd b j).extent = if (j : Nat) < 3 then 4 else if (j : Nat) < 6 then 24 else if (j : Nat) < 9 then 1 else 30 := by
  simp only [extent, bkdElem]
  split_ifs <;> rfl

theorem size_le_extent (d : Device) : d.size ≤ d.extent := by
  cases d with
  | bkd b j =>
    rw [extent_bkd]
    simp only [size, payload, length_bkdPayload]
    split_ifs <;> omega
  | bkhoA u =>
    simp only [size, payload, extent]
    split_ifs <;> simp [Struct.subSize, ylsToYVData]
  | outServo k => exact Nat.le_refl 0

theorem Owns.entry {d : Device} {o : Nat} (h : d.Owns o) : d.Entry o :=
  ⟨h.1, Nat.lt_of_lt_of_le h.2 (Nat.add_le_add_left d.size_le_extent _)⟩

theorem entry_bkd {b j : Fin 12} {o : Nat} (h : (bkd b j).Entry o) :
    (j : Nat) < 3 ∧ 69 + 12 * b + 4 * j ≤ o ∧ o < 73 + 12 * b + 4 * j ∨
      3 ≤ (j : Nat) ∧ (j : Nat) < 6 ∧ 157 + 72 * b + 24 * j ≤ o ∧ o < 181 + 72 * b + 24 * j ∨
      6 ≤ (j : Nat) ∧ (j : Nat) < 9 ∧ o = 27 + 3 * b + j ∨
      9 ≤ (j : Nat) ∧ 1307 + 90 * b + 30 * j ≤ o ∧ o < 1337 + 90 * b + 30 * j := by
  rw [Entry, extent_bkd, entry, addr_bkdElem] at h
  split_ifs at h <;> omega

theorem entry_bkhoA {u : Fin 24} {o : Nat} (h : (bkhoA u).Entry o) : (u : Nat) < 3 ∧ o = 30 + u := by
  have hsize : ylsToYVData.subSize .ypsMaskBKHOA 1 = 1 := rfl
  simp only [Entry, entry, extent, addr_ypsMaskBKHOA, hsize] at h
  split_ifs at h <;> omega

/-- Different devices have disjoint entries. -/
theorem Entry.unique {d d' : Device} {o : Nat} (h : d.Entry o) (h' : d'.Entry o) : d = d' := by
  cases d with
  | outServo k => exact absurd h.2 (Nat.not_lt.mpr h.1)
  | bkhoA u =>
    have hu := entry_bkhoA h
    cases d' with
    | outServo k => exact absurd h'.2 (Nat.not_lt.mpr h'.1)
    | bkhoA u' =>
      have hu' := entry_bkhoA h'
      exact congrArg bkhoA (Fin.ext (by omega))
    | bkd b j =>
      have hb := entry_bkd h'
      omega
  | bkd b j =>
    have hb := entry_bkd h
    cases d' with
    | outServo k => exact absurd h'.2 (Nat.not_lt.mpr h'.1)
    | bkhoA u =>
      have hu := entry_bkhoA h'
      omega
    | bkd b' j' =>
      have hb' := entry_bkd h'
      have hbj : (b : Nat) = b' ∧ (j : Nat) = j' := by
        rcases hb with hb | hb | hb | hb <;> rcases hb' with hb' | hb' | hb' | hb' <;> omega
      rw [Fin.ext hbj.1, Fin.ext hbj.2]

theorem Owns.unique {d d' : Device} {o : Nat} (h : d.Owns o) (h' : d'.Owns o) : d = d' := h.entry.unique h'.entry

theorem Entry.ge {d : Device} {o : Nat} (h : d.Entry o) : 30 ≤ o := by
  cases d with
  | bkd b j =>
    have := entry_bkd h
    omega
  | bkhoA u =>
    have := entry_bkhoA h
    omega
  | outServo k => exact absurd h.2 (Nat.not_lt.mpr h.1)

theorem Owns.ge {d : Device} {o : Nat} (h : d.Owns o) : 30 ≤ o := h.entry.ge

theorem data_congr {d : Device} {pk pk' : Memory} (h : ∀ o, d.Owns o → pk o = pk' o) : d.data pk = d.data pk' :=
  read_eq_read_iff.mpr fun _ hi => h _ ⟨Nat.le_add_right _ _, Nat.add_lt_add_left hi _⟩

end Device

/-- In the slot of the servos, a frame that is taken for a reply of BKD 13 is stored in the entry of `d`. -/
def Counters.Spoils (c : Counters) (d : Device) : Prop :=
  c.currentBKD = 13 ∧
    ((c.currentDeviceInBKDx = 2 ∨ c.currentDeviceInBKDx = 3) ∧ d = .bkd 0 3 ∨
      c.currentDeviceInBKDx = 7 ∧ d = .bkd 0 0 ∨
      (c.currentDeviceInBKDx = 8 ∨ c.currentDeviceInBKDx = 9) ∧ d = .bkd 0 1)

instance (c : Counters) (d : Device) : Decidable (c.Spoils d) := inferInstanceAs (Decidable (_ ∧ _))

theorem spoils_of_overrun {c : Counters} (h13 : c.currentBKD = 13) {j : Fin 12} (hj : c.currentDeviceInBKDx = j + 1)
    {d : Device} {o : Nat} (ho : d.Owns o) {message : Memory} (hlo : ylsToYVData.addr (Device.bkdElem 13 j) ≤ o)
    (hhi : o < ylsToYVData.addr (Device.bkdElem 13 j) + (Device.bkdPayload j message).length) : c.Spoils d := by
  rw [Device.addr_bkdElem] at hlo hhi
  rw [Device.length_bkdPayload] at hhi
  refine ⟨h13, ?_⟩
  cases d with
  | outServo k => exact absurd ho.2 (Nat.not_lt.mpr ho.1)
  | bkhoA u =>
    have hu := Device.entry_bkhoA ho.entry
    split_ifs at hlo hhi <;> omega
  | bkd b k =>
    simp only [Device.bkd.injEq, Fin.ext_iff, hj]
    rcases Device.entry_bkd ho.entry with hb | hb | hb | hb <;> split_ifs at hlo hhi <;> omega

/-- The data of a device, `old` before, after a frame taken for a reply of BKD 13 runs into them. -/
def Device.spilled (d : Device) (c : Counters) (message : Memory) (old : List Byte) : List Byte :=
  overlay old d.entry (ylsToYVData.addr (bkdElem 13 (c.currentDeviceInBKDx - 1)))
    (bkdPayload (c.currentDeviceInBKDx - 1) message)

theorem data_overrun {c : Counters} (h13 : c.currentBKD = 13) {j : Fin 12} (hj : c.currentDeviceInBKDx = j + 1)
    (d : Device) (message pk : Memory) :
    d.data (applyStores (.set (Device.bkd 0 j).field 13 :: bkdStores 13 j message) pk) =
      if c.Spoils d then d.spilled c message (d.data pk) else d.data pk := by
  have hset : d.data ((Store.set (Device.bkd 0 j).field 13).apply pk) = d.data pk :=
    Device.data_congr fun o ho => apply_set_of_ge (Nat.le_trans (by decide) ho.ge)
  rw [applyStores_cons, applyStores_bkdStores]
  split_ifs with hsp
  · rw [Device.data, read_write_eq_overlay, ← Device.data, hset, Device.spilled, hj, Nat.add_sub_cancel]
  · rw [← hset]
    exact Device.data_congr fun o ho => write_outside fun hov => hsp (spoils_of_overrun h13 hj ho hov.1 hov.2)

/-- The data of a device after a frame: replaced if the device answers, overwritten if they are spoiled. -/
theorem data_replyStores {c : Counters} (hc : c.InRange) {d : Device} (hd : d.slot ≠ 13) (message : Memory)
    (size : Nat) (pk : Memory) :
    d.data (applyStores (replyStores c message size) pk) =
      if Answers message size ∧ c.Selects d then d.payload message
      else if Answers message size ∧ c.Spoils d then d.spilled c message (d.data pk)
      else d.data pk := by
  by_cases ha : Answers message size
  · simp only [ha, true_and]
    rcases slot_cases hc with h13 | ⟨h12, hadr⟩ | ⟨d', hd', hs⟩
    · obtain ⟨j, hj⟩ := exists_device hc
      have hno : ¬ c.Selects d := fun hsel => hd (hsel.1.symm.trans h13)
      rw [replyStores_outServo message size h13 hj 0, if_pos ha, if_neg hno, data_overrun h13 hj]
    · have hsp : ¬ c.Spoils d := fun hsp => absurd (h12.symm.trans hsp.1) (by decide)
      rw [replyStores_of_lt message size h12 hadr, applyStores_nil, if_neg (not_selects_of_lt h12 hadr d), if_neg hsp]
    · have hsp : ¬ c.Spoils d := fun hsp => hs hsp.1
      rw [replyStores_selects message size hd' hs, if_pos ha, applyStores_cons, Device.applyStores_stores, if_neg hsp]
      by_cases hdd : d = d'
      · subst hdd
        rw [if_pos hd', Device.data, ← d.length_payload message, read_write]
      · rw [if_neg fun hsel => hdd (hsel.unique hd')]
        refine Device.data_congr fun o ho => ?_
        have hout : ¬ (d'.entry ≤ o ∧ o < d'.entry + (d'.payload message).length) := by
          rw [Device.length_payload]
          exact fun ho' => hdd (ho.unique ho')
        rw [write_outside hout, apply_set_of_ge (Nat.le_trans (by decide) ho.ge)]
  · have hnil : replyStores c message size = [] := replyStores_of_not_answers hc ha
    rw [hnil, applyStores_nil, if_neg fun hsel => ha hsel.1, if_neg fun hsp => ha hsp.1]

theorem data_step {s : State} (hs : s.counters.InRange) {d : Device} (hd : d.slot ≠ 13) (e : Event) (k : Fin 2) :
    d.data ((step s e).ylsToYVPack k) =
      match e with
      | .frame message size =>
        if k = s.currentTickTxEth then
          if Answers message size ∧ s.counters.Selects d then d.payload message
          else if Answers message size ∧ s.counters.Spoils d then
            d.spilled s.counters message (d.data (s.ylsToYVPack k))
          else d.data (s.ylsToYVPack k)
        else d.data (s.ylsToYVPack k)
      | _ => d.data (s.ylsToYVPack k) := by
  cases e with
  | tick => exact Device.data_congr fun o ho => tick_of_ge hs (Nat.le_trans (by decide) ho.ge) k
  | frame message size =>
    rw [ylsToYVPack_step]
    by_cases hk : k = s.currentTickTxEth
    · simp only [hk, if_true]
      exact data_replyStores hs hd message size _
    · simp only [hk, if_false]
  | request message => rfl

end YlsFirmware
