import YlsFirmware.Theorems.Rows

/-! # Segments of a packet from YV

`udp_reciev` looks at the first segment of the chain only. It takes a datagram for a packet from YV if that segment
has 80 bytes, whatever is behind it. -/

namespace YlsFirmware
open Packed

def Segment.bytes (g : Segment) : List Byte := read g.payload 0 g.len

/-- The payload of the datagram. -/
def Pbuf.data (p : Pbuf) : List Byte := p.first.bytes ++ p.next.flatMap Segment.bytes

theorem Pbuf.length_data (p : Pbuf) : p.data.length = p.totLen := by
  simp [Pbuf.data, Pbuf.totLen, Segment.bytes, List.length_flatMap]

/-- `Check_message_YV` runs exactly for a payload of 80 bytes, interprets that payload, and the chain is freed
    once. -/
structure Accepted (s : State) (p : Pbuf) : Prop where
  runs : (udpReciev s (some p)).interpreted ≠ none ↔ p.data.length = sizeMessageYV
  bytes : ∀ message ∈ (udpReciev s (some p)).interpreted, read message 0 sizeMessageYV = p.data
  freed : (udpReciev s (some p)).freed = 1

/-- Both chains are accepted as they should, and with the same payload they leave the same rows. -/
structure Independent (s : State) (p p' : Pbuf) : Prop where
  accepted : Accepted s p ∧ Accepted s p'
  rows : p.data = p'.data →
    (udpReciev s (some p)).state.messageFromBKD = (udpReciev s (some p')).state.messageFromBKD

/-! ### What is read of a packet -/

theorem yvByte_congr {rxpak rxpak' : Memory} (h : ∀ o < sizeMessageYV, rxpak o = rxpak' o) {e : Elem YVToYLSField}
    (he : yvToYLSData.addr e + yvToYLSData.unit e.field ≤ sizeMessageYV) (shift : Nat) :
    yvByte rxpak e shift = yvByte rxpak' e shift := by
  have hpos : 0 < yvToYLSData.unit e.field := by
    cases e.field <;> decide
  have hload : loadYV rxpak e = loadYV rxpak' e := by
    unfold loadYV
    split_ifs with h2
    · rw [load16, load16, h _ (by omega), h _ (by omega)]
    · rw [h _ (by omega)]
  rw [yvByte, yvByte, hload]

/-- The loop, also where it leaves its arrays, reads the 80 bytes only. -/
theorem yvRows_congr {rxpak rxpak' : Memory} (h : ∀ o < sizeMessageYV, rxpak o = rxpak' o) :
    yvRows rxpak = yvRows rxpak' := by
  have hcommand : yvCommand rxpak = yvCommand rxpak' := by
    rw [yvCommand, yvCommand, h _ (by decide)]
  have hread : ∀ i < 13, ∀ x ∈ yvColumns i,
      yvToYLSData.addr x.2.1 + yvToYLSData.unit x.2.1.field ≤ sizeMessageYV := by
    decide
  refine List.flatMap_congr fun i hi => ?_
  have hcolumns : ((yvColumns i).map fun x => RowStore.byte i x.1 (yvByte rxpak x.2.1 x.2.2)) =
      (yvColumns i).map fun x => RowStore.byte i x.1 (yvByte rxpak' x.2.1 x.2.2) :=
    List.map_congr_left fun x hx => by rw [yvByte_congr h (hread i (List.mem_range.mp hi) x hx)]
  rw [yvRow, yvRow, hcommand, hcolumns]

/-! ### Chains -/

theorem udpReciev_of_eq {p : Pbuf} (h : p.first.len = sizeMessageYV) (s : State) :
    udpReciev s (some p) = ⟨(checkMessageYV s p.first.payload).1, some p.first.payload, 1⟩ := by
  simp only [udpReciev, if_pos h.symm]

theorem udpReciev_of_ne {p : Pbuf} (h : p.first.len ≠ sizeMessageYV) (s : State) :
    udpReciev s (some p) = ⟨s, none, 1⟩ := by
  simp only [udpReciev, if_neg h.symm]

/-- A first segment that is as long as the chain is all of it. -/
theorem Pbuf.data_of_eq {p : Pbuf} (h : p.first.len = p.totLen) : p.data = p.first.bytes := by
  have hnext : (p.next.flatMap Segment.bytes).length = 0 := by
    have hlen := p.length_data
    rw [Pbuf.data, List.length_append, Segment.bytes, length_read] at hlen
    omega
  rw [Pbuf.data, List.eq_nil_of_length_eq_zero hnext, List.append_nil]

theorem accepted_iff {s : State} {p : Pbuf} :
    Accepted s p ↔ (p.first.len = sizeMessageYV ↔ p.totLen = sizeMessageYV) := by
  by_cases h : p.first.len = sizeMessageYV
  · have hr := udpReciev_of_eq h s
    constructor
    · rintro ⟨hruns, -, -⟩
      rw [hr, Pbuf.length_data] at hruns
      exact iff_of_true h (hruns.mp nofun)
    · intro htot
      have hlen : p.totLen = sizeMessageYV := htot.mp h
      refine ⟨?_, ?_, ?_⟩
      · rw [hr, Pbuf.length_data]
        exact iff_of_true nofun hlen
      · rintro message hm
        rw [hr, Option.mem_some_iff] at hm
        rw [Pbuf.data_of_eq (h.trans hlen.symm), ← hm, Segment.bytes, h]
      · rw [hr]
  · have hr := udpReciev_of_ne h s
    constructor
    · rintro ⟨hruns, -, -⟩
      rw [hr, Pbuf.length_data] at hruns
      exact iff_of_false h fun hlen => hruns.mpr hlen rfl
    · intro htot
      refine ⟨?_, ?_, ?_⟩
      · rw [hr, Pbuf.length_data]
        exact iff_of_false (fun hne => hne rfl) fun hlen => h (htot.mpr hlen)
      · rw [hr]
        nofun
      · rw [hr]

/-- Acceptance depends only on the datagram exactly where the first segments have 80 bytes if and only if the whole
    payloads do. -/
theorem independent_iff (s : State) (p p' : Pbuf) :
    Independent s p p' ↔ (p.first.len = sizeMessageYV ↔ p.totLen = sizeMessageYV) ∧
      (p'.first.len = sizeMessageYV ↔ p'.totLen = sizeMessageYV) := by
  rw [← @accepted_iff s p, ← @accepted_iff s p']
  refine ⟨Independent.accepted, fun hacc => ⟨hacc, fun hdata => ?_⟩⟩
  obtain ⟨h, h'⟩ := hacc
  have htot : p.totLen = p'.totLen := by
    rw [← p.length_data, ← p'.length_data, hdata]
  by_cases h80 : p.totLen = sizeMessageYV
  · have hlen := (accepted_iff.mp h).mpr h80
    have hlen' := (accepted_iff.mp h').mpr (htot.symm.trans h80)
    have hbytes := h.bytes p.first.payload (by rw [udpReciev_of_eq hlen]; rfl)
    have hbytes' := h'.bytes p'.first.payload (by rw [udpReciev_of_eq hlen']; rfl)
    have hsame : ∀ o < sizeMessageYV, p.first.payload o = p'.first.payload o := fun o ho => by
      simpa only [Nat.zero_add] using read_eq_read_iff.mp (hbytes.trans (hdata.trans hbytes'.symm)) o ho
    rw [udpReciev_of_eq hlen, udpReciev_of_eq hlen']
    change applyRowStores _ _ = applyRowStores _ _
    rw [yvRows_congr hsame]
  · have hlen := mt (accepted_iff.mp h).mp h80
    have hlen' := mt (accepted_iff.mp h').mp (htot ▸ h80)
    rw [udpReciev_of_ne hlen, udpReciev_of_ne hlen']

/-- A packet from YV in one segment and the same in two halves, which is not interpreted. -/
theorem not_independent_halves :
    Pbuf.data ⟨⟨fun _ => 0, 80⟩, []⟩ = Pbuf.data ⟨⟨fun _ => 0, 40⟩, [⟨fun _ => 0, 40⟩]⟩ ∧
      ¬ Independent boot ⟨⟨fun _ => 0, 80⟩, []⟩ ⟨⟨fun _ => 0, 40⟩, [⟨fun _ => 0, 40⟩]⟩ := by
  refine ⟨by decide, fun h => ?_⟩
  have hhalves := accepted_iff.mp h.accepted.2
  exact absurd (hhalves.mpr rfl) (by decide)

end YlsFirmware
