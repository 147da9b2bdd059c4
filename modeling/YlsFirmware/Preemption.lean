import YlsFirmware.Firmware

/-! # Preemption

`Check_message_YV` runs in the main loop, so interrupts come between its stores to the command rows. A poll tick has
the DMA send the row of its slot, which it reads byte by byte from the row itself while the main loop goes on. -/

namespace YlsFirmware
open Packed

/-- A transfer on USART5: the row that is sent, and the bytes read of it so far. -/
structure Sending where
  row : Nat
  sent : List Byte

structure Bus where
  app : State
  /-- the stores that `Check_message_YV`, if it is running, has still to make -/
  running : Option (List RowStore)
  sending : Option Sending

def Bus.init : Bus := ⟨boot, none, none⟩

inductive BusEvent where
  /-- `Check_message_YV` is called -/
  | receive (message : Memory)
  /-- its next store, or what comes after the last one -/
  | store
  | tick
  | frame (message : Memory) (size : Nat)
  /-- the DMA reads a byte -/
  | dma

/-- A poll tick starts a transfer anew, whatever is left of the last one. -/
def busStep (x : Bus) : BusEvent → Option Bus
  | .receive message =>
    match x.running with
    | none => some { x with running := some (yvRows message) }
    | some _ => none
  | .store =>
    match x.running with
    | some (w :: ws) => some { x with app := x.app.storeRows [w], running := some ws }
    | some [] => some { x with app := x.app.switchPacket, running := none }
    | none => none
  | .tick =>
    let s := qwertyAllDevice x.app
    some { x with app := s, sending := some ⟨s.counters.currentBKD, []⟩ }
  | .frame message size => some { x with app := checkMessageUART x.app message size }
  | .dma =>
    match x.sending with
    | some t =>
      if t.sent.length < usartBufferTxSizeYLS then
        some { x with sending := some { t with sent := t.sent ++ [x.app.messageFromBKD t.row t.sent.length] } }
      else none
    | none => none

theorem exec_stores (x : Bus) (ws : List RowStore) :
    Machine.exec busStep { x with running := some ws } (List.replicate ws.length .store) =
      some { x with app := x.app.storeRows ws, running := some [] } := by
  induction ws generalizing x with
  | nil => rfl
  | cons w ws ih => exact ih { x with app := x.app.storeRows [w] }

/-- A request that nothing comes between is the request of the firmware. -/
theorem exec_request {x : Bus} (h : x.running = none) (message : Memory) :
    Machine.exec busStep x (.receive message :: List.replicate (yvRows message).length .store ++ [.store]) =
      some { x with app := step x.app (.request message) } := by
  have hreceive : busStep x (.receive message) = some { x with running := some (yvRows message) } := by
    rw [busStep, h]
  rw [List.cons_append, Machine.exec_cons, hreceive, Option.bind_some, Machine.exec_append, exec_stores]
  cases x
  cases h
  rfl

end YlsFirmware
