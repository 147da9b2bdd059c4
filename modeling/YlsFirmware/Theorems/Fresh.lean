import YlsFirmware.Theorems.Entries

/-! # Freshness of the data sent to YV

A reply is stored in one of the two packets, and a request switches the packets before it sends one. The
packet sent has the last reply of a device if an odd number of requests came between them and no frame in the
slot of the servos ran into it. After an even number of requests it has an earlier reply, the last one that came
while it was current. -/

namespace YlsFirmware
open Packed

/-- What a run tells about the replies of one device. -/
structure FreshRecord where
  /-- for each of the two packets: the data of the last reply that came while it was current, zero at boot -/
  earlier : Fin 2 → List Byte
  /-- a frame in the slot of the servos has been stored over these data since then -/
  spoiled : Fin 2 → Bool
  /-- the data of the last reply -/
  last : Option (List Byte)
  /-- the number of requests since the last reply -/
  requests : Nat

def FreshRecord.init (d : Device) : FreshRecord :=
  ⟨fun k => d.data (boot.ylsToYVPack k), fun _ => false, none, 0⟩

def FreshRecord.observe (d : Device) (o : FreshRecord) (s : State) : Event → FreshRecord
  | .tick => o
  | .frame message size =>
    let k := s.currentTickTxEth
    if Answers message size ∧ s.counters.Selects d then
      { earlier := Function.update o.earlier k (d.payload message)
        spoiled := Function.update o.spoiled k false
        last := some (d.payload message)
        requests := 0 }
    else if Answers message size ∧ s.counters.Spoils d then
      { o with spoiled := Function.update o.spoiled k true }
    else o
  | .request _ => { o with requests := o.requests + 1 }

def freshRecord (d : Device) (evs : List Event) : FreshRecord :=
  Machine.record step (FreshRecord.observe d) boot (.init d) evs

/-- The packet that the request has sent holds the data of the last reply of the device. -/
def Fresh (d : Device) (evs : List Event) (message : Memory) : Prop :=
  let sent := checkMessageYV (after evs) message
  ∀ p, (freshRecord d evs).last = some p → d.data (sent.1.ylsToYVPack sent.2.buffer) = p

def FreshRecord.packet (o : FreshRecord) (s : State) : Fin 2 :=
  if o.requests % 2 = 0 then s.currentTickTxEth else s.switchPacket.currentTickTxEth

theorem FreshRecord.packet_eq (o : FreshRecord) (s : State) :
    o.packet s = if o.requests % 2 = 0 then s.currentTickTxEth else 1 - s.currentTickTxEth := by
  rw [FreshRecord.packet, State.currentTickTxEth_switchPacket]

theorem one_sub_one_sub (k : Fin 2) : 1 - (1 - k) = k := by
  revert k
  decide

/-- The last reply came while the packet was current that the parity of the requests tells. -/
theorem earlier_packet (d : Device) (evs : List Event) {p : List Byte} (hp : (freshRecord d evs).last = some p) :
    (freshRecord d evs).earlier ((freshRecord d evs).packet (after evs)) = p := by
  let P : State → FreshRecord → Prop := fun s o => ∀ p, o.last = some p → o.earlier (o.packet s) = p
  have hstep : ∀ s o e, P s o → P (step s e) (FreshRecord.observe d o s e) := by
    intro s o e ho p hp
    cases e with
    | tick => simpa [FreshRecord.observe, FreshRecord.packet_eq, currentTickTxEth_step] using ho p hp
    | frame message size =>
      rw [FreshRecord.packet_eq, currentTickTxEth_step]
      by_cases hsel : Answers message size ∧ s.counters.Selects d
      · simp only [FreshRecord.observe, if_pos hsel, Option.some.injEq] at hp ⊢
        simpa using hp
      · have hkept : (FreshRecord.observe d o s (.frame message size)).earlier = o.earlier ∧
            (FreshRecord.observe d o s (.frame message size)).last = o.last ∧
            (FreshRecord.observe d o s (.frame message size)).requests = o.requests := by
          simp only [FreshRecord.observe, if_neg hsel]
          split_ifs <;> exact ⟨rfl, rfl, rfl⟩
        rw [hkept.2.1] at hp
        rw [hkept.1, hkept.2.2]
        simpa only [FreshRecord.packet_eq] using ho p hp
    | request message =>
      have hpacket : (FreshRecord.observe d o s (.request message)).packet (step s (.request message)) =
          o.packet s := by
        simp only [FreshRecord.observe, FreshRecord.packet_eq, currentTickTxEth_step, one_sub_one_sub]
        rcases Nat.mod_two_eq_zero_or_one o.requests with h0 | h1
        · rw [if_neg (by omega), if_pos h0]
        · rw [if_pos (by omega), if_neg (by omega)]
      rw [hpacket]
      exact ho p hp
  have h₀ : P boot (.init d) := nofun
  exact Machine.record_invariant hstep h₀ evs p hp

/-- The entry of the device in either packet holds the last reply that came while the packet was current, unless
    it has been spoiled. -/
theorem data_eq_earlier {d : Device} (hd : d.slot ≠ 13) (evs : List Event) {k : Fin 2}
    (hsp : (freshRecord d evs).spoiled k = false) :
    d.data ((after evs).ylsToYVPack k) = (freshRecord d evs).earlier k := by
  let P : State → FreshRecord → Prop := fun s o =>
    s.counters.InRange ∧ ∀ k, o.spoiled k = false → d.data (s.ylsToYVPack k) = o.earlier k
  have hstep : ∀ s o e, P s o → P (step s e) (FreshRecord.observe d o s e) := by
    rintro s o e ⟨hs, ho⟩
    refine ⟨inRange_step hs e, fun k hsp => ?_⟩
    rw [data_step hs hd]
    cases e with
    | tick => exact ho k hsp
    | request message => exact ho k hsp
    | frame message size =>
      by_cases hk : k = s.currentTickTxEth
      · subst hk
        by_cases hsel : Answers message size ∧ s.counters.Selects d
        · simp [FreshRecord.observe, hsel]
        · by_cases hover : Answers message size ∧ s.counters.Spoils d
          · simp [FreshRecord.observe, if_neg hsel, if_pos hover] at hsp
          · simp only [FreshRecord.observe, if_neg hsel, if_neg hover] at hsp ⊢
            exact ho _ hsp
      · have hkept : (FreshRecord.observe d o s (.frame message size)).earlier k = o.earlier k ∧
            (FreshRecord.observe d o s (.frame message size)).spoiled k = o.spoiled k := by
          simp only [FreshRecord.observe]
          split_ifs <;> simp [hk]
        simp only [if_neg hk, hkept.1]
        exact ho k (hkept.2 ▸ hsp)
  have h₀ : P boot (.init d) := ⟨inRange_boot, fun _ _ => rfl⟩
  exact (Machine.record_invariant hstep h₀ evs).2 k hsp

/-- The frame is taken for a reply in the slot of the servos. -/
def ServoReply (s : State) : Event → Prop
  | .frame message size => Answers message size ∧ s.counters.currentBKD = 13
  | _ => False

/-- Without such frames no entry is spoiled. -/
theorem spoiled_eq_false {evs : List Event} (h : ∀ as e bs, evs = as ++ e :: bs → ¬ ServoReply (after as) e)
    (d : Device) (k : Fin 2) : (freshRecord d evs).spoiled k = false := by
  induction evs using List.reverseRecOn with
  | nil => rfl
  | append_singleton evs e ih =>
    have hprev := ih (Machine.forall_of_append h)
    have he := h evs e [] rfl
    rw [freshRecord, Machine.record_concat, ← freshRecord, ← after]
    cases e with
    | tick => exact hprev
    | request message => exact hprev
    | frame message size =>
      simp only [FreshRecord.observe]
      split_ifs with hsel hover
      · by_cases hk : k = (after evs).currentTickTxEth <;> simp [hk, hprev]
      · exact absurd ⟨hover.1, hover.2.1⟩ he
      · exact hprev

theorem fresh_iff_data {d : Device} {evs : List Event} {message : Memory} :
    Fresh d evs message ↔ ∀ p, (freshRecord d evs).last = some p →
      d.data ((after evs).ylsToYVPack (1 - (after evs).currentTickTxEth)) = p := by
  rw [Fresh, buffer_checkMessageYV, ylsToYVPack_checkMessageYV]

/-- Where no frame in the slot of the servos has been stored over its entry, the packet sent has the last reply of
    the device if an odd number of requests came in between. After an even number it has the last reply that came
    before the request in front of it, and the two must be the same data. -/
theorem fresh_iff {d : Device} (hd : d.slot ≠ 13) {evs : List Event}
    (hsp : (freshRecord d evs).spoiled (1 - (after evs).currentTickTxEth) = false) (message : Memory) :
    Fresh d evs message ↔ ∀ p, (freshRecord d evs).last = some p → (freshRecord d evs).requests % 2 = 0 →
      (freshRecord d evs).earlier (1 - (after evs).currentTickTxEth) = p := by
  rw [fresh_iff_data]
  refine forall₂_congr fun p hp => ?_
  rw [data_eq_earlier hd evs hsp]
  constructor
  · exact fun h _ => h
  · intro h
    rcases Nat.mod_two_eq_zero_or_one (freshRecord d evs).requests with heven | hodd
    · exact h heven
    · have hpacket := earlier_packet d evs hp
      rwa [FreshRecord.packet_eq, if_neg (by omega)] at hpacket

/-- BKD 1 is polled for the first time and its device 1 answers. The next request sends the other packet. -/
theorem not_fresh_first_request : ¬ Fresh (.bkd 1 0) [.tick, .frame (sealFrame (fun _ => 1#8) 32) 32] fun _ => 0#8 := by
  have hans : Answers (sealFrame (fun _ => 1#8) 32) 32 := answers_sealFrame _
  have hsel : boot.counters.next.Selects (.bkd 1 0) := by decide
  have hcur : (after [.tick, .frame (sealFrame (fun _ => 1#8) 32) 32]).currentTickTxEth = 0 := by
    simp [after, currentTickTxEth_step]
  have hsp : (freshRecord (.bkd 1 0) [.tick, .frame (sealFrame (fun _ => 1#8) 32) 32]).spoiled (1 - 0) = false := by
    simp [freshRecord, Machine.record, Machine.watch, FreshRecord.observe, FreshRecord.init, hans, counters_step, hsel,
      currentTickTxEth_step]
  rw [fresh_iff_data, hcur, data_eq_earlier (by decide) _ hsp]
  intro h
  have hone := h [1#8, 1#8, 1#8, 1#8] (by
    simp [freshRecord, Machine.record, Machine.watch, FreshRecord.observe, hans, counters_step, hsel]
    decide)
  simp [freshRecord, Machine.record, Machine.watch, FreshRecord.observe, FreshRecord.init, hans, counters_step,
    hsel, currentTickTxEth_step] at hone
  exact absurd hone (by decide)

/-- One request later the packet is sent that has the reply. -/
theorem fresh_second_request :
    Fresh (.bkd 1 0) [.tick, .frame (sealFrame (fun _ => 1#8) 32) 32, .request fun _ => 0#8] fun _ => 0#8 := by
  have hans : Answers (sealFrame (fun _ => 1#8) 32) 32 := answers_sealFrame _
  have hsel : boot.counters.next.Selects (.bkd 1 0) := by decide
  refine (fresh_iff (by decide) ?_ _).mpr fun p _ heven => ?_
  · simp [freshRecord, Machine.record, Machine.watch, FreshRecord.observe, FreshRecord.init, hans, counters_step, hsel,
      currentTickTxEth_step, after]
  · simp [freshRecord, Machine.record, Machine.watch, FreshRecord.observe, FreshRecord.init, hans, counters_step,
      hsel] at heven

end YlsFirmware
