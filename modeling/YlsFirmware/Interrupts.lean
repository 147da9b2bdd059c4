import YlsFirmware.Firmware

/-! # Interrupts

The byte-level machine: the receive interrupts of the two lines, the timers that end a frame, the poll timer
and the ends of transmission, each handled to its end. A receive interrupt that stores outside its buffer is a
fault. The poll tick transmits on USART5 only. -/

namespace YlsFirmware
open Packed

def usartRxBufferSize : Nat := 200

structure Line where
  /-- `usartN_transmit` -/
  transmit : Bool
  /-- `usartN_counter` -/
  counter : Nat
  /-- `usartN_buffer_rx` -/
  bufferRx : Memory
  /-- the timer that ends the frame is running -/
  timerEn : Bool

def Line.init : Line := ⟨false, 0, fun _ => 0, false⟩

/-- `USARTn_IRQHandler` -/
def Line.receive (l : Line) (data : Byte) : Option Line :=
  if l.counter < usartRxBufferSize then
    let l := { l with
      bufferRx := Function.update l.bufferRx l.counter data
      counter := incr8 l.counter }
    if l.transmit = false then
      if l.counter < usartRxBufferSize then some { l with timerEn := true } else some { l with counter := 0 }
    else some l
  else none

/-- The end of `TIMER2_IRQHandler` and `TIMER4_IRQHandler`, after the call of `Check_message_UART`. -/
def Line.endRx (l : Line) : Line := { l with counter := 0, timerEn := false }

structure Board where
  app : State
  usart0 : Line
  usart5 : Line

def Board.init : Board := ⟨boot, .init, .init⟩

inductive Irq where
  | usart0 (data : Byte)
  | usart5 (data : Byte)
  | timer2
  | timer4
  | timer6
  | dma1Channel6
  | dma1Channel7
  /-- a packet from YV -/
  | udp (message : Memory)

def irq (b : Board) : Irq → Option Board
  | .usart0 data => (b.usart0.receive data).map fun l => { b with usart0 := l }
  | .usart5 data => (b.usart5.receive data).map fun l => { b with usart5 := l }
  | .timer2 => some { b with
      app := checkMessageUART b.app b.usart0.bufferRx b.usart0.counter
      usart0 := b.usart0.endRx }
  | .timer4 => some { b with
      app := checkMessageUART b.app b.usart5.bufferRx b.usart5.counter
      usart5 := b.usart5.endRx }
  | .timer6 => some { b with
      app := qwertyAllDevice b.app
      usart5 := { b.usart5 with transmit := true } }
  | .dma1Channel6 => some { b with usart5 := { b.usart5 with transmit := false } }
  | .dma1Channel7 => some { b with usart0 := { b.usart0 with transmit := false } }
  | .udp message => some { b with app := (checkMessageYV b.app message).1 }

def Board.events (b : Board) : Irq → List Event
  | .timer2 => [.frame b.usart0.bufferRx b.usart0.counter]
  | .timer4 => [.frame b.usart5.bufferRx b.usart5.counter]
  | .timer6 => [.tick]
  | .udp message => [.request message]
  | _ => []

theorem app_irq {b c : Board} {i : Irq} (h : irq b i = some c) : c.app = Machine.run step b.app (b.events i) := by
  cases i with
  | usart0 data =>
    rw [irq, Option.map_eq_some_iff] at h
    obtain ⟨l, -, rfl⟩ := h
    rfl
  | usart5 data =>
    rw [irq, Option.map_eq_some_iff] at h
    obtain ⟨l, -, rfl⟩ := h
    rfl
  | _ =>
    cases h
    rfl

/-- The byte-level machine refines the firmware: above the lines, its runs are runs of the firmware. -/
theorem reachable_app {evs : List Irq} {b : Board} (h : Machine.exec irq .init evs = some b) : Reachable b.app := by
  obtain ⟨evs', h'⟩ := Machine.exec_simulation (fun _ _ _ => app_irq) h
  exact ⟨evs', h'.symm⟩

end YlsFirmware
