import YlsFirmware.Theorems.Fresh
import YlsFirmware.Theorems.Health

/-! # Ownership of the packet sent

lwIP reads the packet that a request has sent by reference. After the switch that packet is the current one,
to which the interrupts write, so it stays as it is only where what they write is there already. -/

namespace YlsFirmware
open Packed

/-! ### Assignments without effect -/

theorem set_eq_self_iff {d : Device} {pk : Memory} :
    (Store.set d.field d.index).apply pk = pk ↔ bit pk d.healthBit = true := by
  constructor
  · intro h
    rw [← h, bit_set_healthBit]
    simp
  · intro h
    refine ext_bit fun n => ?_
    rw [bit_set_healthBit]
    by_cases hn : n = d.healthBit
    · rw [hn, h, Bool.true_or]
    · simp [hn]

theorem clear_eq_self_iff {d : Device} {pk : Memory} :
    (Store.clear d.field d.index).apply pk = pk ↔ bit pk d.healthBit = false := by
  constructor
  · intro h
    rw [← h, bit_clear_healthBit]
    simp
  · intro h
    refine ext_bit fun n => ?_
    rw [bit_clear_healthBit]
    by_cases hn : n = d.healthBit
    · rw [hn, h, Bool.false_and]
    · simp [hn]

/-! ### Steps without effect -/

/-- What the step writes to the current packet is there already. -/
def Harmless (s : State) : Event → Prop
  | .tick => ∀ d, s.counters.next.Selects d → bit (s.ylsToYVPack s.currentTickTxEth) d.healthBit = false
  | .frame message size => Answers message size →
      (∀ d, s.counters.Selects d → s.counters.currentBKD ≠ 13 →
        bit (s.ylsToYVPack s.currentTickTxEth) d.healthBit = true ∧
          d.data (s.ylsToYVPack s.currentTickTxEth) = d.payload message) ∧
      (s.counters.currentBKD = 13 → ∀ j : Fin 12, s.counters.currentDeviceInBKDx = j + 1 →
        read (s.ylsToYVPack s.currentTickTxEth) (ylsToYVData.addr (Device.bkdElem 13 j))
          (Device.bkdPayload j message).length = Device.bkdPayload j message)
  | .request _ => True

theorem clears_eq_self_iff {c : Counters} (hc : c.InRange) {pk : Memory} :
    applyStores c.clears pk = pk ↔ ∀ d, c.Selects d → bit pk d.healthBit = false := by
  by_cases hex : ∃ d, c.Selects d
  · obtain ⟨d, hd⟩ := hex
    rw [clears_of_selects hd, applyStores_cons, applyStores_nil, clear_eq_self_iff]
    exact ⟨fun h d' hd' => hd'.unique hd ▸ h, fun h => h d hd⟩
  · have hno : ∀ d, ¬ c.Selects d := fun d hd => hex ⟨d, hd⟩
    rw [clears_of_not_selects hc hno, applyStores_nil]
    exact ⟨fun _ d hd => absurd hd (hno d), fun _ => rfl⟩

/-- A reply of the selected device changes nothing if its bit is set and its data are there. -/
theorem reply_eq_self_iff {d : Device} {message pk : Memory} :
    applyStores (.set d.field d.index :: d.stores message) pk = pk ↔
      bit pk d.healthBit = true ∧ d.data pk = d.payload message := by
  have hread : d.data pk = d.payload message ↔ write pk d.entry (d.payload message) = pk := by
    rw [write_eq_self_iff, Device.length_payload, Device.data]
  rw [applyStores_cons, Device.applyStores_stores, hread]
  constructor
  · intro h
    have hbit : bit pk d.healthBit = true := by
      rw [← h, ← Device.applyStores_stores, bit_stores d message _ d.healthBit_lt, bit_set]
      simp
    rw [set_eq_self_iff.mpr hbit] at h
    exact ⟨hbit, h⟩
  · rintro ⟨hbit, h⟩
    rw [set_eq_self_iff.mpr hbit, h]

/-- A frame that is taken for a reply of BKD 13 changes nothing if its data are where it is stored. -/
theorem overrun_eq_self_iff {j : Fin 12} {message pk : Memory} :
    applyStores (.set (Device.bkd 0 j).field 13 :: bkdStores 13 j message) pk = pk ↔
      read pk (ylsToYVData.addr (Device.bkdElem 13 j)) (Device.bkdPayload j message).length =
        Device.bkdPayload j message := by
  rw [applyStores_cons, applyStores_bkdStores, ext_bit fun n => bit_set_thirteen 0 j pk n, write_eq_self_iff]

/-- A poll tick or a frame leaves the current packet as it is exactly if it is harmless. -/
theorem step_eq_self_iff {s : State} (hs : s.counters.InRange) {e : Event} (he : ∀ m, e ≠ .request m) :
    (step s e).ylsToYVPack s.currentTickTxEth = s.ylsToYVPack s.currentTickTxEth ↔ Harmless s e := by
  rw [ylsToYVPack_step]
  cases e with
  | tick => simpa [Harmless] using clears_eq_self_iff hs.next
  | request m => exact absurd rfl (he m)
  | frame message size =>
    simp only [if_true, Harmless]
    by_cases ha : Answers message size
    · rcases slot_cases hs with h13 | ⟨h12, hadr⟩ | ⟨d, hd, h13⟩
      · obtain ⟨j, hj⟩ := exists_device hs
        rw [replyStores_outServo message size h13 hj 0, if_pos ha, overrun_eq_self_iff]
        constructor
        · intro h _
          refine ⟨fun _ _ hne => absurd h13 hne, fun _ j' hj' => ?_⟩
          have hjj : j' = j := Fin.ext (by omega)
          rwa [hjj]
        · exact fun h => (h ha).2 h13 j hj
      · rw [replyStores_of_lt message size h12 hadr, applyStores_nil]
        refine ⟨fun _ _ => ⟨fun d hd => absurd hd (not_selects_of_lt h12 hadr d), fun h13 => ?_⟩, fun _ => rfl⟩
        omega
      · rw [replyStores_selects message size hd h13, if_pos ha, reply_eq_self_iff]
        constructor
        · exact fun h _ => ⟨fun d' hd' _ => hd'.unique hd ▸ h, fun h' => absurd h' h13⟩
        · exact fun h => (h ha).1 d hd h13
    · rw [replyStores_of_not_answers hs ha, applyStores_nil]
      exact ⟨fun _ ha' => absurd ha' ha, fun _ => rfl⟩

/-- What the step writes is what the events before it have left in the current packet: that the device was polled, or
    that it gave the same reply. -/
def Repeats (evs : List Event) : Event → Prop
  | .tick => ∀ d : Device, d.slot ≠ 13 → (after evs).counters.next.Selects d →
      (healthRecord d evs).answered (after evs).currentTickTxEth = false
  | .frame message size => Answers message size → ∀ d, (after evs).counters.Selects d →
      (healthRecord d evs).answered (after evs).currentTickTxEth = true ∧
        (freshRecord d evs).earlier (after evs).currentTickTxEth = d.payload message
  | .request _ => True

/-- Without replies in the slot of the servos, which steps are harmless can be told from the polls and the frames. -/
theorem harmless_iff_repeats {evs : List Event} {e : Event}
    (h : ∀ as x bs, evs ++ [e] = as ++ x :: bs → ¬ ServoReply (after as) x) :
    Harmless (after evs) e ↔ Repeats evs e := by
  have hsp := fun d => spoiled_eq_false (Machine.forall_of_append h) d (after evs).currentTickTxEth
  cases e with
  | tick =>
    constructor
    · intro hharm d hd hsel
      rw [← bit_eq_answered hd]
      exact hharm d hsel
    · intro hrep d hsel
      by_cases hd : d.slot = 13
      · cases d with
        | bkd b j =>
          have hb : (b : Nat) = 13 := hd
          omega
        | bkhoA u => cases hd
        | outServo k => exact bit_outServo ⟨evs, rfl⟩ _ k
      · rw [bit_eq_answered hd]
        exact hrep d hd hsel
  | frame message size =>
    refine forall_congr' fun ha => ?_
    have hslot : (after evs).counters.currentBKD ≠ 13 := fun h13 => h evs _ [] rfl ⟨ha, h13⟩
    rw [and_iff_left fun h13 => absurd h13 hslot]
    refine forall₂_congr fun d hsel => ?_
    have hd : d.slot ≠ 13 := hsel.1 ▸ hslot
    rw [bit_eq_answered hd, data_eq_earlier hd evs (hsp d)]
    exact ⟨fun hharm => hharm hslot, fun hrep _ => hrep⟩
  | request message => exact Iff.rfl

/-! ### After a request -/

/-- From the request on, none of the poll ticks and frames changes the packet that was sent. -/
def Untouched (pre : List Event) (message : Memory) (evs : List Event) : Prop :=
  ∀ as e bs, evs = as ++ e :: bs →
    (after (pre ++ .request message :: as ++ [e])).ylsToYVPack (checkMessageYV (after pre) message).2.buffer =
      (after (pre ++ .request message :: as)).ylsToYVPack (checkMessageYV (after pre) message).2.buffer

theorem current_after_request (pre : List Event) (message : Memory) {evs : List Event}
    (h : ∀ e ∈ evs, ∀ m, e ≠ .request m) :
    (after (pre ++ .request message :: evs)).currentTickTxEth = (checkMessageYV (after pre) message).2.buffer := by
  have hframe : ∀ (s : State) e, (∀ m, e ≠ .request m) → (step s e).currentTickTxEth = s.currentTickTxEth := by
    intro s e he
    rw [currentTickTxEth_step]
    cases e with
    | request m => exact absurd rfl (he m)
    | _ => rfl
  rw [after, Machine.run_append, Machine.run_cons, Machine.run_frame hframe h]
  rfl

/-- The packet stays as it was sent as long as every poll tick and frame has what makes it harmless. -/
theorem untouched_iff_forall (pre : List Event) (message : Memory) {evs : List Event}
    (h : ∀ e ∈ evs, ∀ m, e ≠ .request m) {P : List Event → Event → Prop}
    (hP : ∀ as e bs, evs = as ++ e :: bs → (Harmless (after (pre ++ .request message :: as)) e ↔ P as e)) :
    Untouched pre message evs ↔ ∀ as e bs, evs = as ++ e :: bs → P as e := by
  refine forall₃_congr fun as e bs => forall_congr' fun hsplit => ?_
  rw [← hP as e bs hsplit]
  subst hsplit
  have has : ∀ e ∈ as, ∀ m, e ≠ .request m := fun e he => h e (List.mem_append_left _ he)
  rw [after_concat, ← current_after_request pre message has]
  exact step_eq_self_iff (inRange_after _) (h e (by simp))

/-- The packet stays as it was sent exactly as long as every poll tick and frame is harmless. -/
theorem untouched_iff (pre : List Event) (message : Memory) {evs : List Event}
    (h : ∀ e ∈ evs, ∀ m, e ≠ .request m) :
    Untouched pre message evs ↔
      ∀ as e bs, evs = as ++ e :: bs → Harmless (after (pre ++ .request message :: as)) e :=
  untouched_iff_forall pre message h fun _ _ _ _ => Iff.rfl

/-- In a run without replies in the slot of the servos, the packet stays as it was sent exactly as long as the polls and the
    frames repeat what is in it. -/
theorem untouched_iff_repeats (pre : List Event) (message : Memory) {evs : List Event}
    (h : ∀ e ∈ evs, ∀ m, e ≠ .request m)
    (hservo : ∀ as e bs, pre ++ .request message :: evs = as ++ e :: bs → ¬ ServoReply (after as) e) :
    Untouched pre message evs ↔ ∀ as e bs, evs = as ++ e :: bs → Repeats (pre ++ .request message :: as) e := by
  refine untouched_iff_forall pre message h fun as e bs hsplit => harmless_iff_repeats ?_
  have hrun : pre ++ .request message :: evs = pre ++ .request message :: as ++ [e] ++ bs := by
    rw [hsplit, List.append_assoc, List.append_assoc]
    rfl
  rw [hrun] at hservo
  exact Machine.forall_of_append hservo

theorem bit_first_request (k : Fin 2) (d : Device) :
    bit ((after [.tick, .request fun _ => 0#8]).ylsToYVPack k) d.healthBit = false := by
  change bit ((step (step boot .tick) (.request fun _ => 0#8)).ylsToYVPack k) d.healthBit = false
  rw [bit_step (inRange_step inRange_boot .tick), bit_first_tick]

/-- BKD 1 is polled for the first time, a request has a packet sent, and the reply of device 1 is stored in
    that packet. -/
theorem not_untouched_reply :
    ¬ Untouched [.tick] (fun _ => 0#8) [.frame (sealFrame (fun _ => 1#8) 32) 32] := by
  have hans : Answers (sealFrame (fun _ => 1#8) 32) 32 := answers_sealFrame _
  have hnil : ∀ e ∈ ([] : List Event), ∀ m, e ≠ .request m := by simp
  have hframe : ∀ m, Event.frame (sealFrame (fun _ => 1#8) 32) 32 ≠ .request m := nofun
  intro h
  have hkept := h [] _ [] rfl
  rw [after_concat, ← current_after_request [.tick] (fun _ => 0#8) hnil] at hkept
  have hharm := (step_eq_self_iff (inRange_after _) hframe).mp hkept hans
  have hset := (hharm.1 (.bkd 1 0) (by decide) (by decide)).1
  exact Bool.false_ne_true ((bit_first_request _ _).symm.trans hset)

theorem untouched_silent : Untouched [.tick] (fun _ => 0#8) [.tick] := by
  refine (untouched_iff [.tick] _ (by simp)).mpr fun as e bs hsplit => ?_
  cases as with
  | nil =>
    cases hsplit
    exact fun d _ => bit_first_request _ d
  | cons a as => simp at hsplit

end YlsFirmware
