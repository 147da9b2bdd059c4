import YlsFirmware.Theorems.Entries

/-! # The datagram to YV

What the replies collect in the packet lies in front of `yvp_data`, except for the data of the YLK-96, which are
its last member. The 1432 bytes that are sent end within `yvp_data`. -/

namespace YlsFirmware
open Packed

/-- The members of the packet that the replies of the BKD and of the BKHO-A fill from end to end, if the padding of
    the health map is left aside. -/
def collectedFields : List YLSToYVField := [.healthAbonent, .ypsMaskBKHOA, .ypsMask, .ykpAngle, .yazData]

/-- Offset `o` is in one of these members, or in the part of an element of `ylk96_data` that a reply fills. -/
def Collected (o : Nat) : Prop :=
  (∃ f ∈ collectedFields, offset ylsToYVData.size ylsToYVData.members f ≤ o ∧
    o < offset ylsToYVData.size ylsToYVData.members f + ylsToYVData.size f) ∨
  ∃ b < 12, ∃ p < 3, ∃ i < 24, o = ylsToYVData.addr ⟨.ylk96Data, [b, p, i]⟩

/-- The bytes that `Check_message_YV` has sent while the packets have the contents `pk`. -/
def datagram (s : State) (rxpak pk : Memory) : Option (List Byte) :=
  let (s, sent) := checkMessageYV { s with ylsToYVPack := fun _ => pk } rxpak
  udpSendBuf true true (s.ylsToYVPack sent.buffer) sent.size

/-- Contents that differ in what is collected are sent as different bytes. -/
def Reported (s : State) (rxpak pk pk' : Memory) : Prop :=
  (∃ o, Collected o ∧ pk o ≠ pk' o) → datagram s rxpak pk ≠ datagram s rxpak pk'

/-- The receiver can tell byte `o` of the packet from what it receives. -/
def Decodable (s : State) (rxpak : Memory) (o : Nat) : Prop :=
  ∃ decode : List Byte → Byte, ∀ pk, (datagram s rxpak pk).map decode = some (pk o)

theorem collected_iff {o : Nat} :
    Collected o ↔ o < 213 ∨ 229 ≤ o ∧ o < 1093 ∨
      ∃ b < 12, ∃ p < 3, ∃ i < 24, o = ylsToYVData.addr ⟨.ylk96Data, [b, p, i]⟩ := by
  have hfields : (∃ f ∈ collectedFields, offset ylsToYVData.size ylsToYVData.members f ≤ o ∧
      o < offset ylsToYVData.size ylsToYVData.members f + ylsToYVData.size f) ↔
      0 ≤ o ∧ o < 30 ∨ 30 ≤ o ∧ o < 33 ∨ 33 ≤ o ∧ o < 69 ∨ 69 ≤ o ∧ o < 213 ∨ 229 ≤ o ∧ o < 1093 := by
    simp only [collectedFields, List.mem_cons, List.not_mem_nil, or_false, exists_eq_or_imp, exists_eq_left]
    exact Iff.rfl
  have hjoin : (0 ≤ o ∧ o < 30 ∨ 30 ≤ o ∧ o < 33 ∨ 33 ≤ o ∧ o < 69 ∨ 69 ≤ o ∧ o < 213 ∨ 229 ≤ o ∧ o < 1093) ↔
      o < 213 ∨ 229 ≤ o ∧ o < 1093 := by
    omega
  rw [Collected, hfields, hjoin, or_assoc]

theorem datagram_eq (s : State) (rxpak pk : Memory) : datagram s rxpak pk = some (read pk 0 1432) := rfl

theorem datagram_eq_iff {s : State} {rxpak pk pk' : Memory} :
    datagram s rxpak pk = datagram s rxpak pk' ↔ ∀ o < 1432, pk o = pk' o := by
  simp only [datagram_eq, Option.some.injEq, read_eq_read_iff, Nat.zero_add]

theorem decodable_iff (s : State) (rxpak : Memory) (o : Nat) : Decodable s rxpak o ↔ o < 1432 := by
  simp only [Decodable, datagram_eq, Option.map_some, Option.some.injEq, determined_by_read_iff, Nat.zero_le, true_and,
    Nat.zero_add]

/-! ### What is collected -/

theorem Device.Owns.collected {d : Device} {o : Nat} (h : d.Owns o) : Collected o := by
  rw [collected_iff]
  cases d with
  | outServo k => exact absurd h.2 (Nat.not_lt.mpr h.1)
  | bkhoA u =>
    have hu := Device.entry_bkhoA h.entry
    omega
  | bkd b j =>
    have hb := b.isLt
    rcases Device.entry_bkd h.entry with hbj | hbj | hbj | hbj
    · omega
    · omega
    · omega
    · obtain ⟨-, hlt⟩ := h
      have hsize : (Device.bkd b j).size = 24 := by
        rw [Device.size, Device.payload, Device.length_bkdPayload]
        split_ifs <;> omega
      have hentry : (Device.bkd b j).entry = 1307 + 90 * b + 30 * j := by
        rw [Device.entry, Device.addr_bkdElem]
        split_ifs <;> omega
      rw [hsize, hentry] at hlt
      refine .inr (.inr ⟨b, hb, j - 9, by omega, o - (1307 + 90 * b + 30 * j), by omega, ?_⟩)
      rw [addr_ylk96Data]
      omega

/-- Before the slot of the servos, what a frame changes in the packet is collected. -/
theorem collected_of_frame {s : State} (hs : s.counters.InRange) (h13 : s.counters.currentBKD ≠ 13) {message : Memory}
    {size : Nat} {o : Nat}
    (h : (checkMessageUART s message size).ylsToYVPack s.currentTickTxEth o ≠ s.ylsToYVPack s.currentTickTxEth o) :
    Collected o := by
  rw [checkMessageUART, State.ylsToYVPack_store, if_pos rfl] at h
  rcases slot_cases hs with hslot | ⟨h12, hadr⟩ | ⟨d, hd, -⟩
  · exact absurd hslot h13
  · rw [replyStores_of_lt message size h12 hadr] at h
    exact absurd rfl h
  · rw [replyStores_selects message size hd h13] at h
    split_ifs at h with ha
    · by_contra hcol
      have hout : ¬ (d.entry ≤ o ∧ o < d.entry + (d.payload message).length) := by
        rw [Device.length_payload]
        exact fun ho => hcol (Device.Owns.collected ho)
      have h22 : 22 ≤ o := by
        rw [collected_iff] at hcol
        omega
      rw [applyStores_cons, Device.applyStores_stores, write_outside hout, apply_set_of_ge h22] at h
      exact h rfl
    · exact absurd rfl h

/-! ### What is reported -/

/-- Two contents that differ in what is collected are told apart exactly if they differ somewhere in the first 1432
    bytes. Of what is collected, all but the data of the YLK-96 can be decoded. -/
theorem reported_iff (s : State) (rxpak : Memory) :
    (∀ pk pk', Reported s rxpak pk pk' ↔ ((∃ o, Collected o ∧ pk o ≠ pk' o) → ∃ o < 1432, pk o ≠ pk' o)) ∧
      ∀ o, Collected o → (Decodable s rxpak o ↔ o < offset ylsToYVData.size ylsToYVData.members .ylk96Data) := by
  constructor
  · intro pk pk'
    rw [Reported, ne_eq, datagram_eq_iff]
    push Not
    exact Iff.rfl
  · intro o ho
    have hlast : offset ylsToYVData.size ylsToYVData.members .ylk96Data = 1577 := rfl
    rw [decodable_iff, hlast]
    rcases collected_iff.mp ho with h | h | ⟨b, -, p, -, i, -, rfl⟩
    · omega
    · omega
    · rw [addr_ylk96Data]
      omega

/-- The first byte of the first YLK-96 is not reported. -/
theorem not_reported_ylk96 : ¬ Reported boot (fun _ => 0) (fun _ => 0) (Function.update (fun _ => 0) 1577 1) := by
  have hcol : Collected 1577 := collected_iff.mpr (.inr (.inr ⟨0, by decide, 0, by decide, 0, by decide, rfl⟩))
  intro h
  have hne := h ⟨1577, hcol, by decide⟩
  refine hne (datagram_eq_iff.mpr fun o ho => ?_)
  rw [Function.update_of_ne (Nat.ne_of_lt (Nat.lt_trans ho (by decide)))]

end YlsFirmware
