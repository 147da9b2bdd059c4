import YlsFirmware.Ethernet
import YlsFirmware.Lib.Run

/-! # The firmware as a machine

Poll ticks, frames received on the bus and requests from YV in any order, each handled to its end. The
byte-level machine of `YlsFirmware/Interrupts.lean` refines this one. -/

namespace YlsFirmware
open Packed

inductive Event where
  | tick
  | frame (message : Memory) (size : Nat)
  | request (message : Memory)

def step (s : State) : Event → State
  | .tick => qwertyAllDevice s
  | .frame message size => checkMessageUART s message size
  | .request message => (checkMessageYV s message).1

def after (evs : List Event) : State := Machine.run step boot evs

@[simp] theorem after_nil : after [] = boot := rfl

theorem after_concat (evs : List Event) (e : Event) : after (evs ++ [e]) = step (after evs) e :=
  Machine.run_concat step boot evs e

def Reachable (s : State) : Prop := ∃ evs, after evs = s

theorem Reachable.step {s : State} (h : Reachable s) (e : Event) : Reachable (step s e) := by
  obtain ⟨evs, rfl⟩ := h
  exact ⟨evs ++ [e], after_concat evs e⟩

end YlsFirmware
