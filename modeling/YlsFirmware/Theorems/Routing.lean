import YlsFirmware.Theorems.Health

/-! # Routing of replies

`Check_message_UART` asks whether the slot is not that of the BKHO-A before it asks whether it is, so frames
in the slot of the outer servos go to `Check_message_BKD` and the handler of the servos is never called. -/

namespace YlsFirmware
open Packed

section Routing
variable (s : State) (message : Memory) (size : Nat)

/-- A frame goes to the handler of the slot that was polled. -/
structure Routed : Prop where
  bkd : handedTo s.counters message size = some .checkMessageBKD ↔ s.counters.currentBKD < inTotalBKD
  bkhoA : handedTo s.counters message size = some .checkMessageBKHOA ↔ s.counters.currentBKD = inTotalBKD
  outServo : handedTo s.counters message size = some .checkMessageOUTSERVO ↔ s.counters.currentBKD = inTotalBKD + 1

def ServoReported : Prop := ∀ k, s.counters.Selects (.outServo k) →
  bit ((checkMessageUART s message size).ylsToYVPack s.currentTickTxEth) (Device.outServo k).healthBit = true

end Routing

theorem handler_ne_outServo (c : Counters) : handler c ≠ .checkMessageOUTSERVO := by
  unfold handler
  split_ifs with h₁ h₂
  · nofun
  · nofun
  · exact absurd h₂ h₁

theorem routed_iff {s : State} (hs : s.counters.InRange) {message : Memory} {size : Nat}
    (ha : Accepts message size) : Routed s message size ↔ s.counters.currentBKD ≠ 13 := by
  have hle := hs.slot
  constructor
  · intro h h13
    have hto := h.outServo.mpr h13
    rw [handedTo, if_pos ha, Option.some.injEq] at hto
    exact handler_ne_outServo _ hto
  · intro h13
    by_cases h12 : s.counters.currentBKD = 12
    · have hto : handedTo s.counters message size = some .checkMessageBKHOA := by
        rw [handedTo, if_pos ha, handler_bkhoA h12]
      constructor <;> simp [hto, h12, inTotalBKD]
    · have hto : handedTo s.counters message size = some .checkMessageBKD := by
        rw [handedTo, if_pos ha, handler_of_ne h12]
      constructor <;> simp [hto, h12, inTotalBKD] <;> omega

theorem servoReported_iff {s : State} (h : Reachable s) (message : Memory) (size : Nat) :
    ServoReported s message size ↔ ∀ k, ¬ s.counters.Selects (.outServo k) := by
  constructor
  · intro hrep k hk
    have hnext : Reachable (checkMessageUART s message size) := h.step (.frame message size)
    have := hrep k hk
    rw [bit_outServo hnext] at this
    exact Bool.false_ne_true this
  · exact fun hno k hk => absurd hk (hno k)

/-- A frame is routed to the handler of its slot in every slot but that of the servos. There it never is, and
    no servo that is polled is ever reported. -/
theorem routing {s : State} (h : Reachable s) {message : Memory} {size : Nat} (ha : Accepts message size) :
    (Routed s message size ↔ s.counters.currentBKD ≠ 13) ∧
      (ServoReported s message size ↔ ∀ k, ¬ s.counters.Selects (.outServo k)) :=
  ⟨routed_iff h.inRange ha, servoReported_iff h message size⟩

/-- The thirteenth poll tick starts the slot of the servos. A frame of one byte and its checksum goes to the
    handler of the BKD there. -/
theorem not_routed_servo_slot :
    Reachable (after (List.replicate 13 .tick)) ∧ Accepts (sealFrame (fun _ => 0#8) 2) 2 ∧
      ¬ Routed (after (List.replicate 13 .tick)) (sealFrame (fun _ => 0#8) 2) 2 := by
  have ha : Accepts (sealFrame (fun _ => 0#8) 2) 2 := accepts_sealFrame _ (by decide)
  have h13 : (after (List.replicate 13 .tick)).counters.currentBKD = 13 := by
    rw [counters_ticks]
    decide
  exact ⟨⟨_, rfl⟩, ha, fun h => (routed_iff (inRange_after _) ha).mp h h13⟩

theorem routed_first_slot : Routed (after [.tick]) (sealFrame (fun _ => 0#8) 2) 2 ∧
    ServoReported (after [.tick]) (sealFrame (fun _ => 0#8) 2) 2 := by
  have h := routing ⟨[.tick], rfl⟩ (accepts_sealFrame (fun _ => 0#8) (Nat.lt_succ_self 1))
  exact ⟨h.1.mpr (by decide), h.2.mpr (by decide)⟩

end YlsFirmware
