import YlsFirmware.Lib.Cycle
import YlsFirmware.Theorems.Rows
import YlsFirmware.Theorems.Switches

/-! # The order of the polls

The slots follow each other, the device of the BKD slots advances once in a round of the slots, and the counters
of the BKHO-A and of the outer servos advance when their slot comes. These two count bus addresses and wrap to
the first address of their devices, but start at 1: until they have climbed to it they address devices of the
BKD (and then of the BKHO-A). From there on every class of devices is polled in turn. -/

namespace YlsFirmware
open Packed Cycle

/-! ### Counters after several ticks -/

namespace Counters
variable {c : Counters}

theorem nextSlot_eq (h : c.InRange) :
    c.nextSlot =
      { c with
        currentBKD := wrap 0 13 c.currentBKD
        currentDeviceInBKDx :=
          if c.currentBKD = 13 then wrap 1 12 c.currentDeviceInBKDx else c.currentDeviceInBKDx } := by
  have hslot := h.slot
  have htwelve := h.le_twelve
  have e₁ : incr8 c.currentBKD = c.currentBKD + 1 := incr8_of_lt (by omega)
  have e₂ : incr8 c.currentDeviceInBKDx = c.currentDeviceInBKDx + 1 := incr8_of_lt (by omega)
  simp only [nextSlot, e₁, e₂, inTotalBKD, deviceInBKD, wrap]
  by_cases h13 : c.currentBKD = 13
  · simp [h13]
  · have hlt : ¬ 13 < c.currentBKD + 1 := by omega
    simp [h13, hlt]

theorem nextBKHOA_eq (h : c.InRange) :
    c.nextBKHOA = { c with currentDeviceInBKHOA := wrap 145 168 c.currentDeviceInBKHOA } := by
  have hle := h.bkhoA
  rw [nextBKHOA, incr8_of_lt (by omega)]
  rfl

theorem nextOUTSERVO_eq (h : c.InRange) :
    c.nextOUTSERVO = { c with currentDeviceInOUTSERVO := wrap 169 176 c.currentDeviceInOUTSERVO } := by
  have hle := h.outServo
  rw [nextOUTSERVO, incr8_of_lt (by omega)]
  rfl

theorem next_eq (h : c.InRange) :
    c.next =
      { currentBKD := wrap 0 13 c.currentBKD
        currentDeviceInBKDx := if c.currentBKD = 13 then wrap 1 12 c.currentDeviceInBKDx else c.currentDeviceInBKDx
        currentDeviceInBKHOA :=
          if c.currentBKD = 11 then wrap 145 168 c.currentDeviceInBKHOA else c.currentDeviceInBKHOA
        currentDeviceInOUTSERVO :=
          if c.currentBKD = 12 then wrap 169 176 c.currentDeviceInOUTSERVO else c.currentDeviceInOUTSERVO } := by
  have hslot := h.slot
  rw [next, nextBKHOA_eq h.nextSlot, nextOUTSERVO_eq h.nextSlot, nextSlot_eq h]
  rcases Nat.lt_or_ge c.currentBKD 11 with hlt | hge
  · have hnext : wrap 0 13 c.currentBKD < inTotalBKD := by
      simp only [wrap, inTotalBKD]
      split_ifs <;> omega
    simp [hnext, show c.currentBKD ≠ 11 by omega, show c.currentBKD ≠ 12 by omega]
  · obtain h11 | h12 | h13 : c.currentBKD = 11 ∨ c.currentBKD = 12 ∨ c.currentBKD = 13 := by omega
    · simp [h11, wrap, inTotalBKD]
    · simp [h12, wrap, inTotalBKD]
    · simp [h13, wrap, inTotalBKD]

theorem iterate_next_inRange (h : c.InRange) (n : Nat) : (next^[n] c).InRange := by
  induction n with
  | zero => exact h
  | succ n ih =>
    rw [Function.iterate_succ_apply']
    exact ih.next

theorem iterate_currentBKD (h : c.InRange) (n : Nat) : (next^[n] c).currentBKD = (c.currentBKD + n) % 14 := by
  have hslot := h.slot
  induction n with
  | zero =>
    rw [Nat.add_zero, Nat.mod_eq_of_lt (by omega)]
    rfl
  | succ n ih =>
    rw [Function.iterate_succ_apply', next_eq (iterate_next_inRange h n)]
    simp only [ih, wrap]
    split_ifs <;> omega

theorem iterate_currentDeviceInBKDx (h : c.InRange) (n : Nat) :
    (next^[n] c).currentDeviceInBKDx = (c.currentDeviceInBKDx - 1 + (c.currentBKD + n) / 14) % 12 + 1 := by
  have hslot := h.slot
  have hone := h.one_le
  have htwelve := h.le_twelve
  induction n with
  | zero =>
    rw [Nat.add_zero, Nat.div_eq_of_lt (by omega), Nat.add_zero, Nat.mod_eq_of_lt (by omega)]
    exact (Nat.sub_add_cancel hone).symm
  | succ n ih =>
    rw [Function.iterate_succ_apply', next_eq (iterate_next_inRange h n)]
    simp only [iterate_currentBKD h, ih, wrap]
    split_ifs <;> omega

/-- A counter that moves when slot `k` ends has moved once for each end of that slot. -/
theorem iterate_of_slot (h : c.InRange) {device : Counters → Nat} {f : Nat → Nat} {k : Nat} (hk : k ≤ 13)
    (hnext : ∀ c : Counters, c.InRange → device c.next = if c.currentBKD = k then f (device c) else device c)
    (n : Nat) :
    device (next^[n] c) =
      f^[(c.currentBKD + n + (13 - k)) / 14 - (c.currentBKD + (13 - k)) / 14] (device c) := by
  induction n with
  | zero => rw [Nat.add_zero, Nat.sub_self]; rfl
  | succ n ih =>
    rw [Function.iterate_succ_apply', hnext _ (iterate_next_inRange h n), iterate_currentBKD h, ih]
    split_ifs with hslot
    · rw [← Function.iterate_succ_apply' f]
      congr 2
      omega
    · congr 2
      omega

theorem iterate_currentDeviceInBKHOA (h : c.InRange) (n : Nat) :
    (next^[n] c).currentDeviceInBKHOA =
      (wrap 145 168)^[(c.currentBKD + n + 2) / 14 - (c.currentBKD + 2) / 14] c.currentDeviceInBKHOA :=
  iterate_of_slot h (by decide : 11 ≤ 13) (fun c hc => by rw [next_eq hc]) n

theorem iterate_currentDeviceInOUTSERVO (h : c.InRange) (n : Nat) :
    (next^[n] c).currentDeviceInOUTSERVO =
      (wrap 169 176)^[(c.currentBKD + n + 1) / 14 - (c.currentBKD + 1) / 14] c.currentDeviceInOUTSERVO :=
  iterate_of_slot h (by decide : 12 ≤ 13) (fun c hc => by rw [next_eq hc]) n

end Counters

theorem counters_run_ticks (s : State) (n : Nat) :
    (Machine.run step s (List.replicate n .tick)).counters = Counters.next^[n] s.counters := by
  induction n with
  | zero => rfl
  | succ n ih => rw [List.replicate_succ', Machine.run_concat, counters_step, ih, Function.iterate_succ_apply']

/-! ### The address that a slot polls -/

def Event.isTick : Event → Bool
  | .tick => true
  | _ => false

/-- The number of poll ticks in a run. -/
def ticks (evs : List Event) : Nat := evs.countP Event.isTick

theorem ticks_concat (evs : List Event) (e : Event) :
    ticks (evs ++ [e]) = ticks evs + if e.isTick = true then 1 else 0 := by
  rw [ticks, List.countP_append, List.countP_singleton]
  rfl

theorem counters_after (evs : List Event) : (after evs).counters = Counters.next^[ticks evs] boot.counters := by
  induction evs using List.reverseRecOn with
  | nil => rfl
  | append_singleton evs e ih =>
    rw [after_concat, counters_step, ticks_concat, ih]
    cases e with
    | tick => exact (Function.iterate_succ_apply' Counters.next (ticks evs) boot.counters).symm
    | frame message size => rfl
    | request message => rfl

/-- Byte 0 of the frame that the last poll tick has built is the address of a device of the slot. -/
structure PollsOwn (s : State) : Prop where
  bkd : s.counters.currentBKD < inTotalBKD →
    12 * s.counters.currentBKD + 1 ≤ (s.messageFromBKD s.counters.currentBKD 0).toNat ∧
      (s.messageFromBKD s.counters.currentBKD 0).toNat ≤ 12 * s.counters.currentBKD + 12
  bkhoA : s.counters.currentBKD = inTotalBKD →
    startAdrBKHOA ≤ (s.messageFromBKD s.counters.currentBKD 0).toNat ∧
      (s.messageFromBKD s.counters.currentBKD 0).toNat ≤ andAdrBKHOA
  outServo : s.counters.currentBKD = inTotalBKD + 1 →
    startAdrOUTSERVO ≤ (s.messageFromBKD s.counters.currentBKD 0).toNat ∧
      (s.messageFromBKD s.counters.currentBKD 0).toNat ≤ andAdrOUTSERVO

theorem Counters.address_bkd {c : Counters} (h : c.currentBKD < 12) :
    c.address = c.currentDeviceInBKDx + c.currentBKD * 12 := if_pos h

theorem Counters.address_bkhoA {c : Counters} (h : c.currentBKD = 12) : c.address = c.currentDeviceInBKHOA := by
  rw [Counters.address, if_neg (by simp [h, inTotalBKD]), if_pos (show c.currentBKD = inTotalBKD from h)]

theorem Counters.address_outServo {c : Counters} (h : c.currentBKD = 13) :
    c.address = c.currentDeviceInOUTSERVO := by
  rw [Counters.address, if_neg (by simp [h, inTotalBKD]), if_neg (by simp [h, inTotalBKD])]

theorem Counters.InRange.address_le {c : Counters} (h : c.InRange) : c.address ≤ 176 := by
  have hslot := h.slot
  have hdevice := h.le_twelve
  have hbkhoA := h.bkhoA
  obtain hlt | h12 | h13 : c.currentBKD < 12 ∨ c.currentBKD = 12 ∨ c.currentBKD = 13 := by omega
  · rw [Counters.address_bkd hlt]
    omega
  · rw [Counters.address_bkhoA h12]
    omega
  · rw [Counters.address_outServo h13]
    exact h.outServo

theorem adress_tick {s : State} (hs : s.counters.InRange) :
    ((step s .tick).messageFromBKD (step s .tick).counters.currentBKD 0).toNat = s.counters.next.address := by
  have hle := hs.next.address_le
  rw [counters_step, messageFromBKD_step]
  simp only [if_true, pollRow]
  rw [sealRow_of_ne (by decide), Function.update_self, BitVec.toNat_ofNat, Nat.mod_eq_of_lt (by omega)]

theorem pollsOwn_tick_iff {s : State} (hs : s.counters.InRange) :
    PollsOwn (step s .tick) ↔
      (s.counters.next.currentBKD = 12 → 145 ≤ s.counters.next.currentDeviceInBKHOA) ∧
        (s.counters.next.currentBKD = 13 → 169 ≤ s.counters.next.currentDeviceInOUTSERVO) := by
  have hadress := adress_tick hs
  have hcounters : (step s .tick).counters = s.counters.next := counters_step s .tick
  rw [hcounters] at hadress
  constructor
  · rintro ⟨-, hbkhoA, houtServo⟩
    rw [hcounters, hadress] at hbkhoA houtServo
    refine ⟨fun h12 => ?_, fun h13 => ?_⟩
    · rw [← Counters.address_bkhoA h12]
      exact (hbkhoA h12).1
    · rw [← Counters.address_outServo h13]
      exact (houtServo h13).1
  · rintro ⟨hbkhoA, houtServo⟩
    have hnext := hs.next
    constructor <;> rw [hcounters, hadress] <;> intro hslot
    · have hone := hnext.one_le
      have htwelve := hnext.le_twelve
      rw [Counters.address_bkd hslot]
      omega
    · rw [Counters.address_bkhoA hslot]
      exact ⟨hbkhoA hslot, hnext.bkhoA⟩
    · rw [Counters.address_outServo hslot]
      exact ⟨houtServo hslot, hnext.outServo⟩

/-- The frame built by the `n`-th poll tick of a run has an address of its slot, except in the slot of the BKHO-A
    until tick 2013 and in that of the servos until tick 2350, while their counters climb. -/
theorem pollsOwn_iff (evs : List Event) :
    PollsOwn (after (evs ++ [.tick])) ↔
      ¬ ((ticks evs + 1) % 14 = 12 ∧ ticks evs + 1 < 2014) ∧
        ¬ ((ticks evs + 1) % 14 = 13 ∧ ticks evs + 1 < 2351) := by
  have hnext : (after evs).counters.next = Counters.next^[ticks evs + 1] boot.counters := by
    rw [counters_after, Function.iterate_succ_apply']
  have hslot : (after evs).counters.next.currentBKD = (ticks evs + 1) % 14 := by
    rw [hnext, Counters.iterate_currentBKD inRange_boot, show boot.counters.currentBKD = 0 from rfl, Nat.zero_add]
  have hbkhoA : 145 ≤ (after evs).counters.next.currentDeviceInBKHOA ↔ 145 ≤ 1 + (ticks evs + 3) / 14 := by
    rw [hnext, Counters.iterate_currentDeviceInBKHOA inRange_boot, le_iterate_wrap_iff (by decide) (by decide),
      show boot.counters.currentBKD = 0 from rfl, Nat.zero_add]
    rfl
  have houtServo : 169 ≤ (after evs).counters.next.currentDeviceInOUTSERVO ↔ 169 ≤ 1 + (ticks evs + 2) / 14 := by
    rw [hnext, Counters.iterate_currentDeviceInOUTSERVO inRange_boot, le_iterate_wrap_iff (by decide) (by decide),
      show boot.counters.currentBKD = 0 from rfl, Nat.zero_add]
    rfl
  rw [after_concat, pollsOwn_tick_iff (inRange_after evs), hslot, hbkhoA, houtServo]
  omega

/-- The first frame in the slot of the BKHO-A has address 2, that of a device of BKD 0. -/
theorem not_pollsOwn_first_round : ¬ PollsOwn (after (List.replicate 11 .tick ++ [.tick])) := by
  have hcounters : (after (List.replicate 11 .tick)).counters.next = ⟨12, 1, 2, 1⟩ := by
    rw [counters_ticks]
    decide +kernel
  rw [after_concat, pollsOwn_tick_iff (inRange_after _), hcounters]
  decide

/-! ### Turns -/

/-- The ranges of the counters once they have climbed to the addresses of their devices. -/
structure Counters.Steady (c : Counters) : Prop where
  slot : c.currentBKD ≤ 13
  one_le : 1 ≤ c.currentDeviceInBKDx
  le_twelve : c.currentDeviceInBKDx ≤ 12
  bkhoA : startAdrBKHOA ≤ c.currentDeviceInBKHOA ∧ c.currentDeviceInBKHOA ≤ andAdrBKHOA
  outServo : startAdrOUTSERVO ≤ c.currentDeviceInOUTSERVO ∧ c.currentDeviceInOUTSERVO ≤ andAdrOUTSERVO

/-- How many of the next `n` poll ticks poll the device. -/
def polls (s : State) (d : Device) (n : Nat) : Nat :=
  Nat.count (fun i => (Machine.run step s (List.replicate (i + 1) .tick)).counters.Selects d) n

/-- Byte 0 of the frame of the slot, which the last poll tick has built -/
def State.adress (s : State) : Nat := (s.messageFromBKD s.counters.currentBKD 0).toNat

/-- Among any number of poll ticks the devices of a class are polled equally often up to one, and among any 336
    in a row each of them the same number of times. A poll of a device is a frame with its address. -/
structure FairlyPolled (s : State) : Prop where
  adress : ∀ n d, polls s d n =
    Nat.count (fun i => (Machine.run step s (List.replicate (i + 1) .tick)).adress = d.address) n
  bkd : ∀ n b j b' j', polls s (.bkd b j) n ≤ polls s (.bkd b' j') n + 1
  bkhoA : ∀ n u u', polls s (.bkhoA u) n ≤ polls s (.bkhoA u') n + 1
  outServo : ∀ n k k', polls s (.outServo k) n ≤ polls s (.outServo k') n + 1
  bkd_cycle : ∀ m b j, polls (Machine.run step s (List.replicate m .tick)) (.bkd b j) 336 = 2
  bkhoA_cycle : ∀ m u, polls (Machine.run step s (List.replicate m .tick)) (.bkhoA u) 336 = 1
  outServo_cycle : ∀ m k, polls (Machine.run step s (List.replicate m .tick)) (.outServo k) 336 = 3

/-- The number of poll ticks between two polls of the device. -/
def Device.period : Device → Nat
  | bkd _ _ => 14 * 12
  | bkhoA _ => 14 * 24
  | outServo _ => 14 * 8

theorem Device.period_pos (d : Device) : 0 < d.period := by
  cases d <;> exact Nat.succ_pos _

namespace Counters.Steady
variable {c : Counters}

theorem inRange (h : c.Steady) : c.InRange := ⟨h.slot, h.one_le, h.le_twelve, h.bkhoA.2, h.outServo.2⟩

/-- In this range the address tells the device. -/
theorem selects_iff_address (h : c.Steady) (d : Device) : c.Selects d ↔ c.address = d.address := by
  refine and_iff_right_of_imp fun hadr => ?_
  obtain ⟨hslot, hone, htwelve, ⟨hlo, hhi⟩, hlo', hhi'⟩ := h
  simp only [startAdrBKHOA, andAdrBKHOA, startAdrOUTSERVO, andAdrOUTSERVO, deviceInBKD, inTotalBKD] at hlo hhi hlo' hhi'
  obtain hlt | h12 | h13 : c.currentBKD < 12 ∨ c.currentBKD = 12 ∨ c.currentBKD = 13 := by omega
  · rw [Counters.address_bkd hlt] at hadr
    cases d <;> simp only [Device.slot, Device.address, startAdrBKHOA, startAdrOUTSERVO, inTotalBKD, deviceInBKD] at hadr ⊢ <;>
      omega
  · rw [Counters.address_bkhoA h12] at hadr
    cases d <;> simp only [Device.slot, Device.address, startAdrBKHOA, startAdrOUTSERVO, inTotalBKD, deviceInBKD] at hadr ⊢ <;>
      omega
  · rw [Counters.address_outServo h13] at hadr
    cases d <;> simp only [Device.slot, Device.address, startAdrBKHOA, startAdrOUTSERVO, inTotalBKD, deviceInBKD] at hadr ⊢ <;>
      omega

/-- Each device is polled once in its period. -/
theorem selects_iff_modEq (h : c.Steady) (d : Device) :
    ∃ v, ∀ i, (Counters.next^[i + 1] c).Selects d ↔ i ≡ v [MOD d.period] := by
  have hslot := h.slot
  cases d with
  | bkd b j =>
    have hone := h.one_le
    have htwelve := h.le_twelve
    refine ⟨14 * j + b + 168 - (c.currentBKD + 1 + 14 * (c.currentDeviceInBKDx - 1)), fun i => ?_⟩
    rw [selects_bkd_iff, iterate_currentBKD h.inRange, iterate_currentDeviceInBKDx h.inRange, Nat.ModEq, Device.period]
    omega
  | bkhoA u =>
    have hlo : 145 ≤ c.currentDeviceInBKHOA := h.bkhoA.1
    have hhi : c.currentDeviceInBKHOA ≤ 168 := h.bkhoA.2
    refine ⟨14 * u + 14 * ((c.currentBKD + 2) / 14) + 672 - (c.currentBKD + 3 + 14 * (c.currentDeviceInBKHOA - 145)),
      fun i => ?_⟩
    rw [selects_bkhoA_iff, iterate_currentBKD h.inRange, iterate_currentDeviceInBKHOA h.inRange,
      iterate_wrap hlo hhi, Nat.ModEq, Device.period]
    omega
  | outServo k =>
    have hlo : 169 ≤ c.currentDeviceInOUTSERVO := h.outServo.1
    have hhi : c.currentDeviceInOUTSERVO ≤ 176 := h.outServo.2
    refine ⟨14 * k + 14 * ((c.currentBKD + 1) / 14) + 224 - (c.currentBKD + 2 + 14 * (c.currentDeviceInOUTSERVO - 169)),
      fun i => ?_⟩
    rw [selects_outServo_iff, iterate_currentBKD h.inRange, iterate_currentDeviceInOUTSERVO h.inRange,
      iterate_wrap hlo hhi, Nat.ModEq, Device.period]
    omega

theorem next (h : c.Steady) : c.next.Steady := by
  obtain ⟨hslot, hone, htwelve, ⟨hlo, hhi⟩, hlo', hhi'⟩ := h
  have hinRange : c.InRange := ⟨hslot, hone, htwelve, hhi, hhi'⟩
  simp only [startAdrBKHOA, andAdrBKHOA, startAdrOUTSERVO, andAdrOUTSERVO, deviceInBKD, inTotalBKD] at hlo hhi hlo' hhi'
  rw [next_eq hinRange]
  constructor <;>
    simp only [wrap, startAdrBKHOA, andAdrBKHOA, startAdrOUTSERVO, andAdrOUTSERVO, deviceInBKD, inTotalBKD] <;>
    split_ifs <;> omega

theorem run_ticks {s : State} (h : s.counters.Steady) (m : Nat) :
    (Machine.run step s (List.replicate m .tick)).counters.Steady := by
  induction m with
  | zero => exact h
  | succ m ih =>
    rw [List.replicate_succ', Machine.run_concat, counters_step]
    exact ih.next

end Counters.Steady

section Turns
variable {s : State} (h : s.counters.Steady)
include h

theorem selects_run_ticks_iff (d : Device) :
    ∃ v, ∀ i, (Machine.run step s (List.replicate (i + 1) .tick)).counters.Selects d ↔ i ≡ v [MOD d.period] := by
  simpa only [counters_run_ticks] using h.selects_iff_modEq d

theorem polls_eq_count_adress (d : Device) (n : Nat) :
    polls s d n = Nat.count (fun i => (Machine.run step s (List.replicate (i + 1) .tick)).adress = d.address) n := by
  rw [polls, Nat.count_eq_card_filter_range, Nat.count_eq_card_filter_range]
  refine congrArg Finset.card (Finset.filter_congr fun i _ => ?_)
  have hi := h.run_ticks i
  rw [List.replicate_succ', Machine.run_concat, State.adress, adress_tick hi.inRange, counters_step]
  exact hi.next.selects_iff_address d

theorem polls_le (d d' : Device) (hclass : d.period = d'.period) (n : Nat) : polls s d n ≤ polls s d' n + 1 := by
  obtain ⟨v, hv⟩ := selects_run_ticks_iff h d
  obtain ⟨v', hv'⟩ := selects_run_ticks_iff h d'
  exact count_le_count_add_one d.period_pos hv (hclass ▸ hv') n

theorem polls_mul_period (d : Device) (k : Nat) : polls s d (d.period * k) = k := by
  obtain ⟨v, hv⟩ := selects_run_ticks_iff h d
  exact count_mul d.period_pos hv k

/-- Once the counters have climbed to the addresses of their devices, the polls are fair. -/
theorem fairlyPolled : FairlyPolled s where
  adress n d := polls_eq_count_adress h d n
  bkd n b j b' j' := polls_le h (.bkd b j) (.bkd b' j') rfl n
  bkhoA n u u' := polls_le h (.bkhoA u) (.bkhoA u') rfl n
  outServo n k k' := polls_le h (.outServo k) (.outServo k') rfl n
  bkd_cycle m b j := polls_mul_period (h.run_ticks m) (.bkd b j) 2
  bkhoA_cycle m u := polls_mul_period (h.run_ticks m) (.bkhoA u) 1
  outServo_cycle m k := polls_mul_period (h.run_ticks m) (.outServo k) 3

end Turns

theorem fairlyPolled_start : FairlyPolled { boot with counters := ⟨0, 1, 145, 169⟩ } :=
  fairlyPolled ⟨by decide, by decide, by decide, by decide, by decide⟩

end YlsFirmware
