import Mathlib.Logic.Function.Iterate
import YlsFirmware.Lib.Run

/-! # main.c and netconf.c: the clock of lwIP

SysTick interrupts advance the clock in `time_update`. `lwip_timeouts_check`, which the main loop calls with the
time it has read, compares it with the times of the last calls of `tcp_tmr` and `etharp_tmr`. Times are `uint32_t`
in milliseconds. -/

namespace YlsFirmware

def systemtickPeriodMs : BitVec 32 := 0
def tcpTmrInterval : BitVec 32 := 250
def arpTmrInterval : BitVec 32 := 1000

structure Clock where
  gLocaltime : BitVec 32
  tcpcurtime : BitVec 32
  arpcurtime : BitVec 32
  deriving DecidableEq

namespace Clock

def init : Clock := ⟨0, 0, 0⟩

def timeUpdate (c : Clock) : Clock := { c with gLocaltime := c.gLocaltime + systemtickPeriodMs }

/-- The first test of `lwip_timeouts_check`, and whether `tcp_tmr` is called. -/
def checkTcp (c : Clock) (curtime : BitVec 32) : Clock × Bool :=
  if curtime - c.tcpcurtime ≥ tcpTmrInterval then ({ c with tcpcurtime := curtime }, true) else (c, false)

/-- The second test of `lwip_timeouts_check`, and whether `etharp_tmr` is called. -/
def checkArp (c : Clock) (curtime : BitVec 32) : Clock × Bool :=
  if curtime - c.arpcurtime ≥ arpTmrInterval then ({ c with arpcurtime := curtime }, true) else (c, false)

/-- `lwip_timeouts_check(g_localtime)`, interrupted by `n₁` SysTicks between the read of the clock and the first
    call, and by `n₂` more before the second one. -/
def lwipTimeoutsCheck (c : Clock) (n₁ n₂ : Nat) : Clock × Bool × Bool :=
  let curtime := c.gLocaltime
  let (c, tcp) := (timeUpdate^[n₁] c).checkTcp curtime
  let (c, arp) := (timeUpdate^[n₂] c).checkArp curtime
  (c, tcp, arp)

end Clock

inductive ClockEvent where
  | sysTick
  /-- a pass of the main loop, which comes to `lwip_timeouts_check` -/
  | pass (n₁ n₂ : Nat)

def Clock.step (c : Clock) : ClockEvent → Clock
  | .sysTick => c.timeUpdate
  | .pass n₁ n₂ => (c.lwipTimeoutsCheck n₁ n₂).1

end YlsFirmware
