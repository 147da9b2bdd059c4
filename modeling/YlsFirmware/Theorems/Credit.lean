import YlsFirmware.Theorems.Entries
import YlsFirmware.Theorems.Receive

/-! # Crediting replies

A frame is credited to the device that the counters select when the silence timer fires. The poll tick moves
the counters without resetting the receive counter or the timer, so the frame may hold bytes that came before
it. -/

namespace YlsFirmware
open Packed

/-! ### What a frame updates -/

section Updates
variable {c : Counters} {message : Memory} {size : Nat} {d : Device}

end Updates

/-! ### Where the bytes in the buffer come from -/

/-- What a run tells about the bytes received on USART5. -/
structure Receipts where
  /-- the number of poll ticks -/
  ticks : Nat
  /-- for each place of the buffer, the number of poll ticks when the byte in it came -/
  stamp : Nat → Nat
  /-- the number of poll ticks when the last byte came -/
  slot : Nat
  /-- the number of bytes that have come since that tick -/
  bytes : Nat

def Receipts.init : Receipts := ⟨0, fun _ => 0, 0, 0⟩

def Receipts.observe (o : Receipts) (b : Board) : Irq → Receipts
  | .usart5 _ => { o with
      stamp := Function.update o.stamp b.usart5.counter o.ticks
      slot := o.ticks
      bytes := if o.slot = o.ticks then o.bytes + 1 else 1 }
  | .timer6 => { o with ticks := o.ticks + 1 }
  | _ => o

/-- A run that does not fault leads to this board and this record. -/
def Observed (evs : List Irq) (b : Board) (o : Receipts) : Prop :=
  Machine.exec (Machine.execWatch irq Receipts.observe) (.init, .init) evs = some (b, o)

/-- The last bytes of the buffer are those that came in the slot of the last byte. -/
structure Receipts.Fits (b : Board) (o : Receipts) : Prop where
  slot : o.slot ≤ o.ticks
  bytes : 0 < b.usart5.counter → 0 < o.bytes
  stamp : ∀ i < b.usart5.counter, o.stamp i ≤ o.slot ∧ (o.stamp i = o.slot ↔ b.usart5.counter ≤ i + o.bytes)

theorem fits_receive {b : Board} {o : Receipts} (h : o.Fits b) {data : Byte} {l : Line}
    (hl : b.usart5.receive data = some l) : (o.observe b (.usart5 data)).Fits { b with usart5 := l } := by
  obtain ⟨l', hl', -, -, hcounter⟩ := receive_spec (counter_lt_of_receive hl) data
  cases hl.symm.trans hl'
  refine ⟨Nat.le_refl _, fun _ => ?_, fun i hi => ?_⟩
  · simp only [Receipts.observe]
    split_ifs <;> omega
  · by_cases hreset : b.usart5.transmit = false ∧ b.usart5.counter = 199
    · rw [if_pos hreset] at hcounter
      simp only [hcounter] at hi
      omega
    rw [if_neg hreset] at hcounter
    simp only [hcounter, Receipts.observe] at hi ⊢
    have hslot := h.slot
    by_cases hlast : i = b.usart5.counter
    · rw [hlast, Function.update_self]
      refine ⟨Nat.le_refl _, fun _ => ?_, fun _ => rfl⟩
      split_ifs <;> omega
    · have hstamp := h.stamp i (by omega)
      rw [Function.update_of_ne hlast]
      refine ⟨by omega, ?_⟩
      split_ifs with hsame
      · rw [← hsame, hstamp.2]
        omega
      · omega

theorem fits_irq {b : Board} {o : Receipts} (h : o.Fits b) {e : Irq} {c : Board} (hc : irq b e = some c) :
    (o.observe b e).Fits c := by
  cases e with
  | usart0 data =>
    rw [irq, Option.map_eq_some_iff] at hc
    obtain ⟨l, -, rfl⟩ := hc
    exact ⟨h.slot, h.bytes, h.stamp⟩
  | usart5 data =>
    rw [irq, Option.map_eq_some_iff] at hc
    obtain ⟨l, hl, rfl⟩ := hc
    exact fits_receive h hl
  | timer4 =>
    cases hc
    exact ⟨h.slot, fun h => absurd h (Nat.lt_irrefl 0), fun i hi => absurd hi (Nat.not_lt_zero i)⟩
  | timer6 =>
    cases hc
    exact ⟨Nat.le_succ_of_le h.slot, h.bytes, h.stamp⟩
  | _ =>
    cases hc
    exact ⟨h.slot, h.bytes, h.stamp⟩

theorem fits_init : Receipts.init.Fits .init :=
  ⟨Nat.le_refl 0, fun h => absurd h (Nat.lt_irrefl 0), fun i hi => absurd hi (Nat.not_lt_zero i)⟩

theorem Observed.fits {evs : List Irq} {b : Board} {o : Receipts} (h : Observed evs b o) : o.Fits b := by
  have hstep : ∀ b (o : Receipts) e c, o.Fits b → irq b e = some c → (o.observe b e).Fits c :=
    fun _ _ _ _ hf hc => fits_irq hf hc
  exact Machine.execWatch_invariant hstep fits_init h

def outcome (evs : List Irq) : Option (Nat × Nat × Counters × Bool) :=
  (Machine.exec (Machine.execWatch irq Receipts.observe) (.init, .init) evs).map fun x =>
    (x.2.slot, x.2.bytes, x.1.app.counters, decide (Answers x.1.usart5.bufferRx x.1.usart5.counter))

end YlsFirmware
