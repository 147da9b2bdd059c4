import Mathlib.Tactic.SplitIfs
import YlsFirmware.Interrupts

/-! # Receive buffers

The bound of a receive buffer is tested only while the line does not transmit. USART0 never transmits, so its
buffer is never overrun. On USART5 a byte that arrives while the line transmits and the buffer has one place
left takes the counter to the end of the buffer, and the next byte is stored behind it. -/

namespace YlsFirmware
open Packed

/-! ### One byte -/

theorem receive_spec {l : Line} (h : l.counter < 200) (data : Byte) :
    ∃ l', l.receive data = some l' ∧ l'.transmit = l.transmit ∧
      l'.bufferRx = Function.update l.bufferRx l.counter data ∧
      l'.counter = if l.transmit = false ∧ l.counter = 199 then 0 else l.counter + 1 := by
  have hincr : incr8 l.counter = l.counter + 1 := incr8_of_lt (by omega)
  rw [Line.receive, if_pos (show l.counter < usartRxBufferSize from h)]
  simp only [hincr, usartRxBufferSize]
  by_cases ht : l.transmit = false
  · by_cases hc : l.counter = 199
    · simp [ht, hc]
    · have hlt : l.counter + 1 < 200 := by omega
      simp [ht, hc, hlt]
  · simp [ht]

theorem counter_lt_of_receive {l l' : Line} {data : Byte} (h : l.receive data = some l') : l.counter < 200 := by
  by_contra hge
  rw [Line.receive, if_neg (show ¬ l.counter < usartRxBufferSize from hge)] at h
  cases h

/-- The buffers are not overrun and the counters are within them. -/
structure Board.Bounded (b : Board) : Prop where
  usart0 : b.usart0.counter < 200
  usart5 : b.usart5.counter < 200

/-- A byte arrives on USART5 while it transmits, and fills its buffer. -/
def Overflows (b : Board) : Irq → Prop
  | .usart5 _ => b.usart5.transmit = true ∧ b.usart5.counter = 199
  | _ => False

/-- In every state that the run reaches, the next interrupt stores in bounds and leaves the counters within
    the buffers. -/
def NoOverrun (evs : List Irq) : Prop :=
  ∀ as e bs, evs = as ++ e :: bs → ∀ b, Machine.exec irq .init as = some b → ∃ c, irq b e = some c ∧ c.Bounded

/-! ### Steps -/

theorem bounded_irq {b : Board} (hb : b.Bounded) (h0 : b.usart0.transmit = false) {e : Irq} (he : ¬ Overflows b e) :
    ∃ c, irq b e = some c ∧ c.Bounded ∧ c.usart0.transmit = false := by
  cases e with
  | usart0 data =>
    obtain ⟨l, hl, ht, -, hc⟩ := receive_spec hb.usart0 data
    refine ⟨{ b with usart0 := l }, by rw [irq, hl]; rfl, ⟨?_, hb.usart5⟩, ht.trans h0⟩
    have := hb.usart0
    simp only [hc, h0, true_and]
    split_ifs <;> omega
  | usart5 data =>
    obtain ⟨l, hl, -, -, hc⟩ := receive_spec hb.usart5 data
    refine ⟨{ b with usart5 := l }, by rw [irq, hl]; rfl, ⟨hb.usart0, ?_⟩, h0⟩
    have := hb.usart5
    by_cases ht : b.usart5.transmit = false
    · simp only [hc, ht, true_and]
      split_ifs <;> omega
    · have hne : b.usart5.counter ≠ 199 := fun h199 => he ⟨by simpa using ht, h199⟩
      rw [if_neg fun h => ht h.1] at hc
      simp only [hc]
      omega
  | timer2 => exact ⟨_, rfl, ⟨by simp [Line.endRx], hb.usart5⟩, h0⟩
  | timer4 => exact ⟨_, rfl, ⟨hb.usart0, by simp [Line.endRx]⟩, h0⟩
  | timer6 => exact ⟨_, rfl, ⟨hb.usart0, hb.usart5⟩, h0⟩
  | dma1Channel6 => exact ⟨_, rfl, ⟨hb.usart0, hb.usart5⟩, h0⟩
  | dma1Channel7 => exact ⟨_, rfl, ⟨hb.usart0, hb.usart5⟩, rfl⟩
  | udp message => exact ⟨_, rfl, ⟨hb.usart0, hb.usart5⟩, h0⟩

theorem not_bounded_of_overflows {b c : Board} {e : Irq} (he : Overflows b e) (h : irq b e = some c) : ¬ c.Bounded := by
  cases e with
  | usart5 data =>
    obtain ⟨ht, h199⟩ := he
    obtain ⟨l, hl, -, -, hc⟩ := @receive_spec b.usart5 (by omega) data
    rw [irq, hl] at h
    cases h
    intro hbounded
    have hlt := hbounded.usart5
    simp [hc, ht, h199] at hlt
  | _ => exact absurd he id

/-! ### Runs -/

/-- A run in which no byte overflows the buffer of USART5 does not fault, and stays bounded. -/
theorem bounded_exec {evs : List Irq}
    (h : ∀ as e bs, evs = as ++ e :: bs → ∀ b, Machine.exec irq .init as = some b → ¬ Overflows b e) :
    ∃ b, Machine.exec irq .init evs = some b ∧ b.Bounded ∧ b.usart0.transmit = false := by
  induction evs using List.reverseRecOn with
  | nil => exact ⟨.init, rfl, ⟨by decide, by decide⟩, rfl⟩
  | append_singleton evs e ih =>
    obtain ⟨b, hb, hbounded, h0⟩ := ih (Machine.forall_of_append h)
    obtain ⟨c, hc, hc'⟩ := bounded_irq hbounded h0 (h evs e [] rfl b hb)
    exact ⟨c, by rw [Machine.exec_concat, hb]; exact hc, hc'⟩

/-! ### What the interrupts tell -/

/-- Whether USART5 transmits, and how many bytes there are in its buffer. -/
structure Fill where
  transmit : Bool
  count : Nat

def Fill.next (f : Fill) : Irq → Fill
  | .usart5 _ => { f with count := if f.transmit = false ∧ f.count = 199 then 0 else f.count + 1 }
  | .timer4 => { f with count := 0 }
  | .timer6 => { f with transmit := true }
  | .dma1Channel6 => { f with transmit := false }
  | _ => f

def fill (evs : List Irq) : Fill := Machine.run Fill.next ⟨false, 0⟩ evs

theorem fill_irq {b c : Board} {f : Fill} (hf : b.usart5.transmit = f.transmit ∧ b.usart5.counter = f.count) {e : Irq}
    (h : irq b e = some c) : c.usart5.transmit = (f.next e).transmit ∧ c.usart5.counter = (f.next e).count := by
  cases e with
  | usart0 data =>
    rw [irq, Option.map_eq_some_iff] at h
    obtain ⟨l, -, rfl⟩ := h
    exact hf
  | usart5 data =>
    rw [irq, Option.map_eq_some_iff] at h
    obtain ⟨l, hl, rfl⟩ := h
    obtain ⟨l', hl', ht, -, hc⟩ := receive_spec (counter_lt_of_receive hl) data
    obtain rfl := Option.some.inj (hl.symm.trans hl')
    exact ⟨ht.trans hf.1, by rw [Fill.next, ← hf.1, ← hf.2, hc]⟩
  | timer2 =>
    cases h
    exact hf
  | timer4 =>
    cases h
    exact ⟨hf.1, rfl⟩
  | timer6 =>
    cases h
    exact ⟨rfl, hf.2⟩
  | dma1Channel6 =>
    cases h
    exact ⟨rfl, hf.2⟩
  | dma1Channel7 =>
    cases h
    exact hf
  | udp message =>
    cases h
    exact hf

theorem fill_exec {evs : List Irq} {b : Board} (h : Machine.exec irq .init evs = some b) :
    b.usart5.transmit = (fill evs).transmit ∧ b.usart5.counter = (fill evs).count := by
  refine Machine.exec_history
    (P := fun evs b => b.usart5.transmit = (fill evs).transmit ∧ b.usart5.counter = (fill evs).count) ⟨rfl, rfl⟩ ?_ h
  intro evs b e c hf hc
  rw [fill, Machine.run_concat]
  exact fill_irq hf hc

/-- Which bytes overflow the buffer can be told from the interrupts before them. -/
theorem not_overflows_iff_fill {evs : List Irq} :
    (∀ as e bs, evs = as ++ e :: bs → ∀ b, Machine.exec irq .init as = some b → ¬ Overflows b e) ↔
      ∀ as data bs, evs = as ++ .usart5 data :: bs → ¬ ((fill as).transmit = true ∧ (fill as).count = 199) := by
  constructor
  · intro h as data bs hsplit hfull
    have hnext := h as _ bs hsplit
    subst hsplit
    obtain ⟨b, hb, -⟩ := bounded_exec (Machine.forall_of_append h)
    obtain ⟨ht, hc⟩ := fill_exec hb
    exact hnext b hb ⟨ht.trans hfull.1, hc.trans hfull.2⟩
  · intro h as e bs hsplit b hb he
    obtain ⟨ht, hc⟩ := fill_exec hb
    cases e with
    | usart5 data => exact h as data bs hsplit ⟨ht.symm.trans he.1, hc.symm.trans he.2⟩
    | _ => exact he

/-- The buffers are never overrun in a run exactly if no byte arrives on USART5 that takes the last place of its
    buffer while the line transmits: in the states of the run, and as its interrupts tell. -/
theorem noOverrun_iff (evs : List Irq) :
    (NoOverrun evs ↔
      ∀ as e bs, evs = as ++ e :: bs → ∀ b, Machine.exec irq .init as = some b → ¬ Overflows b e) ∧
    (NoOverrun evs ↔
      ∀ as data bs, evs = as ++ .usart5 data :: bs → ¬ ((fill as).transmit = true ∧ (fill as).count = 199)) := by
  rw [← not_overflows_iff_fill, and_self]
  constructor
  · intro h as e bs hsplit b hb he
    obtain ⟨c, hc, hbounded⟩ := h as e bs hsplit b hb
    exact not_bounded_of_overflows he hc hbounded
  · intro h as e bs hsplit b hb
    have hnext := h as e bs hsplit b hb
    subst hsplit
    obtain ⟨b', hb', hbounded, h0⟩ := bounded_exec (Machine.forall_of_append h)
    cases hb.symm.trans hb'
    obtain ⟨c, hc, hc', -⟩ := bounded_irq hbounded h0 hnext
    exact ⟨c, hc, hc'⟩

theorem exec_echo {b : Board} (ht : b.usart5.transmit = true) (h0 : b.usart5.counter = 0) {n : Nat} (hn : n ≤ 200) :
    ∃ c, Machine.exec irq b (List.replicate n (.usart5 0)) = some c ∧ c.usart5.transmit = true ∧
      c.usart5.counter = n := by
  induction n with
  | zero => exact ⟨b, rfl, ht, h0⟩
  | succ n ih =>
    obtain ⟨c, hc, hct, hcn⟩ := ih (Nat.le_of_succ_le hn)
    obtain ⟨l, hl, hlt, -, hlc⟩ := @receive_spec c.usart5 (by omega) 0
    refine ⟨{ c with usart5 := l }, ?_, hlt.trans hct, ?_⟩
    · rw [List.replicate_succ', Machine.exec_concat, hc, Option.bind_some, irq, hl]
      rfl
    · simp [hlc, hct, hcn]

/-- 200 bytes that arrive while the first poll is transmitted. -/
theorem not_noOverrun_echo : ¬ NoOverrun (.timer6 :: List.replicate 200 (.usart5 0)) := by
  have hpoll : irq .init .timer6 = some { Board.init with
      app := qwertyAllDevice boot
      usart5 := { Line.init with transmit := true } } := rfl
  obtain ⟨c, hc, hct, hcn⟩ := @exec_echo { Board.init with
    app := qwertyAllDevice boot
    usart5 := { Line.init with transmit := true } } rfl rfl 199 (by decide)
  have hrun : Machine.exec irq .init (.timer6 :: List.replicate 199 (.usart5 0)) = some c := by
    rw [Machine.exec_cons, hpoll, Option.bind_some, hc]
  intro h
  obtain ⟨d, hd, hbounded⟩ := h (.timer6 :: List.replicate 199 (.usart5 0)) (.usart5 0) []
    (by rw [List.cons_append, ← List.replicate_succ']) c hrun
  have hover : Overflows c (.usart5 0) := ⟨hct, hcn⟩
  exact not_bounded_of_overflows hover hd hbounded

end YlsFirmware
