import Mathlib.Algebra.GroupWithZero.Nat
import YlsFirmware.Clock

/-! # Timers of the stack

The period by which `time_update` advances the clock is zero, so the clock stands still and neither timer of lwIP
is ever called. -/

namespace YlsFirmware

/-! ### SysTicks since the last calls -/

/-- The SysTick interrupts since the last call of `tcp_tmr` and of `etharp_tmr`, or since boot. -/
structure Elapsed where
  tcp : Nat
  arp : Nat

def Elapsed.observe (o : Elapsed) (c : Clock) : ClockEvent → Elapsed
  | .sysTick => ⟨o.tcp + 1, o.arp + 1⟩
  | .pass n₁ n₂ =>
    let (_, tcp, arp) := c.lwipTimeoutsCheck n₁ n₂
    ⟨if tcp then n₂ else o.tcp + n₁ + n₂, if arp then 0 else o.arp + n₁ + n₂⟩

def clockAfter (evs : List ClockEvent) : Clock := Machine.run Clock.step .init evs

def elapsed (evs : List ClockEvent) : Elapsed := Machine.record Clock.step Elapsed.observe .init ⟨0, 0⟩ evs

/-- `n` SysTicks of 10 ms are an interval of lwIP or more, and less than the range of the clock. -/
def Due (interval : BitVec 32) (n : Nat) : Prop := interval.toNat / 10 ≤ n ∧ 10 * n < 2 ^ 32

/-- A pass of the main loop after the events `as` calls the timers that are due. -/
def CallsDue (as : List ClockEvent) (n₁ n₂ : Nat) : Prop :=
  let (_, tcp, arp) := (clockAfter as).lwipTimeoutsCheck n₁ n₂
  (Due tcpTmrInterval (elapsed as).tcp → tcp = true) ∧ (Due arpTmrInterval (elapsed as).arp → arp = true)

def OnTime (evs : List ClockEvent) : Prop :=
  ∀ as n₁ n₂ bs, evs = as ++ .pass n₁ n₂ :: bs → CallsDue as n₁ n₂

def ClockEvent.sysTicks : ClockEvent → Nat
  | .sysTick => 1
  | .pass n₁ n₂ => n₁ + n₂

/-- The SysTick interrupts since boot. -/
def sysTicks (evs : List ClockEvent) : Nat := (evs.map ClockEvent.sysTicks).sum

/-! ### The clock stands still -/

theorem timeUpdate_eq (c : Clock) : c.timeUpdate = c := by
  have hzero : c.gLocaltime + systemtickPeriodMs = c.gLocaltime := BitVec.add_zero _
  rw [Clock.timeUpdate, hzero]

theorem lwipTimeoutsCheck_init (n₁ n₂ : Nat) : Clock.init.lwipTimeoutsCheck n₁ n₂ = (.init, false, false) := by
  have hstill : ∀ n, Clock.timeUpdate^[n] Clock.init = .init := Function.iterate_fixed (timeUpdate_eq _)
  have htcp : Clock.init.checkTcp Clock.init.gLocaltime = (.init, false) := by decide
  have harp : Clock.init.checkArp Clock.init.gLocaltime = (.init, false) := by decide
  simp only [Clock.lwipTimeoutsCheck, hstill, htcp, harp]

theorem clockAfter_eq (evs : List ClockEvent) : clockAfter evs = .init := by
  have hstep : ∀ (c : Clock) e, c = .init → c.step e = .init := by
    rintro c e rfl
    cases e with
    | sysTick => exact timeUpdate_eq _
    | pass n₁ n₂ => rw [Clock.step, lwipTimeoutsCheck_init]
  exact Machine.run_invariant hstep rfl evs

theorem elapsed_eq (evs : List ClockEvent) : elapsed evs = ⟨sysTicks evs, sysTicks evs⟩ := by
  induction evs using List.reverseRecOn with
  | nil => rfl
  | append_singleton evs e ih =>
    have hsum : sysTicks (evs ++ [e]) = sysTicks evs + e.sysTicks := by
      simp [sysTicks]
    rw [elapsed, Machine.record_concat, ← elapsed, ← clockAfter, ih, clockAfter_eq, hsum]
    cases e with
    | sysTick => rfl
    | pass n₁ n₂ => simp [Elapsed.observe, lwipTimeoutsCheck_init, ClockEvent.sysTicks, Nat.add_assoc]

/-- The tests alone are right, also across the end of the range of the clock: after `n` periods of 10 ms they find
    due what is due. -/
theorem interval_le_of_due {interval : BitVec 32} (hten : 10 ∣ interval.toNat) {n : Nat} (h : Due interval n)
    (last : BitVec 32) : last + BitVec.ofNat 32 (10 * n) - last ≥ interval := by
  obtain ⟨hlo, hhi⟩ := h
  have helapsed : last + BitVec.ofNat 32 (10 * n) - last = BitVec.ofNat 32 (10 * n) := by
    rw [BitVec.add_comm, BitVec.add_sub_cancel]
  rw [helapsed, ge_iff_le, BitVec.le_def, BitVec.toNat_ofNat, Nat.mod_eq_of_lt hhi]
  omega

/-! ### Runs -/

theorem callsDue_iff (as : List ClockEvent) (n₁ n₂ : Nat) :
    CallsDue as n₁ n₂ ↔ ¬ Due tcpTmrInterval (sysTicks as) := by
  simp only [CallsDue, clockAfter_eq, lwipTimeoutsCheck_init, elapsed_eq, Bool.false_eq_true, imp_false]
  have harp : Due arpTmrInterval (sysTicks as) → Due tcpTmrInterval (sysTicks as) := fun h =>
    ⟨Nat.le_trans (by decide) h.1, h.2⟩
  exact and_iff_left_of_imp fun htcp => mt harp htcp

theorem not_onTime_of_due {as : List ClockEvent} (h : Due tcpTmrInterval (sysTicks as)) (n₁ n₂ : Nat) :
    ¬ OnTime (as ++ [.pass n₁ n₂]) := fun hon => (callsDue_iff as n₁ n₂).mp (hon as n₁ n₂ [] rfl) h

/-- No pass calls a timer in any run, so a run is on time exactly if no pass comes when one is due, counted from
    boot. -/
theorem onTime_iff (evs : List ClockEvent) :
    OnTime evs ↔ ∀ as n₁ n₂ bs, evs = as ++ .pass n₁ n₂ :: bs → ¬ Due tcpTmrInterval (sysTicks as) :=
  forall₅_congr fun as n₁ n₂ _ _ => callsDue_iff as n₁ n₂

/-- A second after boot, both timers are due and neither is called. -/
theorem not_onTime_second : ¬ OnTime (List.replicate 100 .sysTick ++ [.pass 0 0]) := by
  have hticks : sysTicks (List.replicate 100 .sysTick) = 100 := by
    simp [sysTicks, ClockEvent.sysTicks]
  refine not_onTime_of_due ?_ 0 0
  rw [hticks]
  exact ⟨by decide, by decide⟩

end YlsFirmware
