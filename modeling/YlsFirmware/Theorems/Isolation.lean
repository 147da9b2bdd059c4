import YlsFirmware.Theorems.Entries
import YlsFirmware.Theorems.Rows

/-! # Isolation of the devices

In the slots of the BKD and of the BKHO-A, a poll clears one health bit, an answer sets the same bit and stores
in the entry of that device, and any other frame is dropped, whatever the packets hold. -/

namespace YlsFirmware
open Packed

/-- The counters are on a device of the BKD or of the BKHO-A. -/
structure Counters.Addressing (c : Counters) : Prop where
  slot : c.currentBKD ≤ inTotalBKD
  device : 1 ≤ c.currentDeviceInBKDx ∧ c.currentDeviceInBKDx ≤ deviceInBKD
  bkhoA : startAdrBKHOA ≤ c.currentDeviceInBKHOA ∧ c.currentDeviceInBKHOA ≤ andAdrBKHOA

theorem Counters.Addressing.exists_selects {c : Counters} (h : c.Addressing) :
    ∃ d : Device, d.address ≤ andAdrBKHOA ∧ d.slot ≠ 13 ∧ c.Selects d := by
  obtain ⟨hslot, ⟨hone, htwelve⟩, hlo, hhi⟩ := h
  simp only [inTotalBKD, deviceInBKD, startAdrBKHOA, andAdrBKHOA] at hslot htwelve hlo hhi ⊢
  rcases Nat.lt_or_ge c.currentBKD 12 with hlt | hge
  · have hsel : c.Selects (.bkd ⟨c.currentBKD, hlt⟩ ⟨c.currentDeviceInBKDx - 1, by omega⟩) :=
      selects_bkd_iff.mpr ⟨rfl, by simp only; omega⟩
    refine ⟨_, ?_, ?_, hsel⟩ <;> simp only [Device.address, Device.slot] <;> omega
  · have hsel : c.Selects (.bkhoA ⟨c.currentDeviceInBKHOA - 145, by omega⟩) :=
      selects_bkhoA_iff.mpr ⟨by omega, by simp only; omega⟩
    refine ⟨_, ?_, ?_, hsel⟩ <;> simp only [Device.address, Device.slot, startAdrBKHOA, inTotalBKD, deviceInBKD] <;>
      omega

/-- What the poll of a device and a frame after it may change in the packets. -/
structure Isolated (s : State) (d : Device) : Prop where
  /-- the poll clears the bit of the device -/
  poll : ∀ k n, bit ((step s .tick).ylsToYVPack k) n =
    (bit (s.ylsToYVPack k) n && !decide (k = s.currentTickTxEth ∧ n = d.healthBit))
  /-- an answer sets it, and besides writes in the entry of the device only -/
  answer : ∀ packs message size, Answers message size → ∀ k n, ¬ (k = s.currentTickTxEth ∧ d.Entry (n / 8)) →
    bit ((checkMessageUART { step s .tick with ylsToYVPack := packs } message size).ylsToYVPack k) n =
      (bit (packs k) n || decide (k = s.currentTickTxEth ∧ n = d.healthBit))
  /-- any other frame is dropped -/
  reject : ∀ packs message size, ¬ Answers message size →
    (checkMessageUART { step s .tick with ylsToYVPack := packs } message size).ylsToYVPack = packs

theorem isolated_of_selects {s : State} {d : Device} (h : (step s .tick).counters.Selects d) (hd : d.slot ≠ 13) :
    Isolated s d := by
  have hslot : (step s .tick).counters.currentBKD ≠ 13 := h.1 ▸ hd
  have hcur : (step s .tick).currentTickTxEth = s.currentTickTxEth := currentTickTxEth_step s .tick
  constructor
  · intro k n
    rw [counters_step] at h
    have hclears : s.counters.next.clears = [.clear d.field d.index] := clears_of_selects h
    rw [ylsToYVPack_step]
    by_cases hk : k = s.currentTickTxEth
    · simp only [hk, if_true, hclears, applyStores_cons, applyStores_nil, bit_clear_healthBit, true_and]
    · simp [hk]
  · intro packs message size ha k n hout
    rw [checkMessageUART, State.ylsToYVPack_store]
    simp only [hcur]
    by_cases hk : k = s.currentTickTxEth
    · have hentry : ¬ (d.entry ≤ n / 8 ∧ n / 8 < d.entry + (d.payload message).length) := by
        rw [Device.length_payload]
        exact fun ho => hout ⟨hk, Device.Owns.entry ho⟩
      rw [if_pos hk, replyStores_selects message size h hslot, if_pos ha, applyStores_cons, Device.applyStores_stores,
        bit_of_byte (write_outside hentry), bit_set_healthBit]
      simp [hk]
    · simp [hk]
  · intro packs message size ha
    funext k
    rw [checkMessageUART, State.ylsToYVPack_store, replyStores_selects message size h hslot, if_neg ha, applyStores_nil,
      ite_self]

/-- Right after a poll in a slot of the BKD or of the BKHO-A, poll and frame agree on the device and touch that
    device only. Devices with different addresses share neither a health bit nor a byte of data. -/
theorem isolated {s : State} (h : (step s .tick).counters.Addressing) :
    (∃ d : Device, d.address ≤ andAdrBKHOA ∧
      (step s .tick).messageFromBKD (step s .tick).counters.currentBKD 0 = BitVec.ofNat 8 d.address ∧ Isolated s d) ∧
    ∀ d d' : Device, d.address ≠ d'.address → d.healthBit ≠ d'.healthBit ∧ ∀ o, ¬ (d.Entry o ∧ d'.Entry o) := by
  constructor
  · obtain ⟨d, hadr, hd, hsel⟩ := h.exists_selects
    refine ⟨d, hadr, ?_, isolated_of_selects hsel hd⟩
    rw [messageFromBKD_step]
    simp only [counters_step, if_true, pollRow]
    rw [sealRow_of_ne (by decide), Function.update_self, ← hsel.2, counters_step]
  · intro d d' hne
    have hdd : d ≠ d' := fun e => hne (congrArg Device.address e)
    exact ⟨fun hbit => hdd (Device.healthBit_inj hbit), fun o ho => hdd (ho.1.unique ho.2)⟩

theorem isolated_first_slot : ∃ d, Isolated { boot with counters := ⟨0, 1, 145, 169⟩ } d := by
  obtain ⟨⟨d, -, -, h⟩, -⟩ := @isolated { boot with counters := ⟨0, 1, 145, 169⟩ } ⟨by decide, by decide, by decide⟩
  exact ⟨d, h⟩

end YlsFirmware
