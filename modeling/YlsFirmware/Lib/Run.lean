import Mathlib.Data.List.Induction

/-! # Runs of state machines

A machine is a step function on states and events: total (`run`), or with events that may fault
(`exec`). Invariants, observers that keep a record along a run, and simulations are proved step by step
and carried to runs here. -/

namespace Machine

section Run
variable {σ ε : Type} (step : σ → ε → σ)

def run (s : σ) (evs : List ε) : σ := evs.foldl step s

@[simp] theorem run_nil (s : σ) : run step s [] = s := rfl

@[simp] theorem run_cons (s : σ) (e : ε) (evs : List ε) : run step s (e :: evs) = run step (step s e) evs := rfl

theorem run_append (s : σ) (as bs : List ε) : run step s (as ++ bs) = run step (run step s as) bs :=
  List.foldl_append

theorem run_concat (s : σ) (evs : List ε) (e : ε) : run step s (evs ++ [e]) = step (run step s evs) e := by
  simp [run_append]

variable {step}

theorem run_invariant {P : σ → Prop} (hstep : ∀ s e, P s → P (step s e)) {s : σ} (h : P s) (evs : List ε) :
    P (run step s evs) := by
  induction evs generalizing s with
  | nil => exact h
  | cons e evs ih => exact ih (hstep s e h)

/-- A quantity that the steps by the events of a run leave alone is the same after the run. -/
theorem run_frame {α : Type} {f : σ → α} {Q : ε → Prop} (hstep : ∀ s e, Q e → f (step s e) = f s) {evs : List ε}
    (hQ : ∀ e ∈ evs, Q e) (s : σ) : f (run step s evs) = f s := by
  induction evs generalizing s with
  | nil => rfl
  | cons e evs ih =>
    rw [run_cons, ih (fun e' he' => hQ e' (List.mem_cons_of_mem _ he')), hstep s e (hQ e List.mem_cons_self)]

/-- A relation between two states that every step keeps holds after the same events. -/
theorem run_related {R : σ → σ → Prop} (hstep : ∀ s t e, R s t → R (step s e) (step t e)) {s t : σ} (h : R s t)
    (evs : List ε) : R (run step s evs) (run step t evs) := by
  induction evs generalizing s t with
  | nil => exact h
  | cons e evs ih => exact ih (hstep s t e h)

end Run

/-- What holds of every event of a run, with the events before it, holds of every event of its beginning. -/
theorem forall_of_append {ε : Type} {P : List ε → ε → Prop} {evs evs' : List ε}
    (h : ∀ as e bs, evs ++ evs' = as ++ e :: bs → P as e) : ∀ as e bs, evs = as ++ e :: bs → P as e := by
  intro as e bs hsplit
  exact h as e (bs ++ evs') (by rw [hsplit, List.append_assoc, List.cons_append])

/-- What holds of every event of a run and of one more holds of every event of the longer run. -/
theorem forall_concat {ε : Type} {P : List ε → ε → Prop} {evs : List ε} {e : ε}
    (h : ∀ as x bs, evs = as ++ x :: bs → P as x) (he : P evs e) :
    ∀ as x bs, evs ++ [e] = as ++ x :: bs → P as x := by
  intro as x bs hsplit
  rcases List.eq_nil_or_concat bs with rfl | ⟨bs', b, rfl⟩
  · obtain ⟨rfl, hx⟩ := List.append_inj' hsplit rfl
    cases hx
    exact he
  · rw [List.concat_eq_append, ← List.cons_append, ← List.append_assoc] at hsplit
    obtain ⟨rfl, -⟩ := List.append_inj' hsplit rfl
    exact h as x bs' rfl

/-! ### Observers -/

section Watch
variable {σ ε ω : Type} (step : σ → ε → σ) (obs : ω → σ → ε → ω)

/-- A step of a machine together with a record that `obs` updates from the state before the step. -/
def watch (x : σ × ω) (e : ε) : σ × ω := (step x.1 e, obs x.2 x.1 e)

def record (s : σ) (o : ω) (evs : List ε) : ω := (run (watch step obs) (s, o) evs).2

/-- Watching a machine does not change its runs. -/
theorem run_watch (s : σ) (o : ω) (evs : List ε) :
    run (watch step obs) (s, o) evs = (run step s evs, record step obs s o evs) := by
  induction evs generalizing s o with
  | nil => rfl
  | cons e evs ih =>
    simp only [run_cons, record, watch]
    exact Prod.ext_iff.mpr ⟨by rw [ih], rfl⟩

theorem record_concat (s : σ) (o : ω) (evs : List ε) (e : ε) :
    record step obs s o (evs ++ [e]) = obs (record step obs s o evs) (run step s evs) e := by
  rw [record, run_concat, run_watch]
  rfl

variable {step obs}

/-- An invariant that relates the record to the state. -/
theorem record_invariant {P : σ → ω → Prop} (hstep : ∀ s o e, P s o → P (step s e) (obs o s e)) {s : σ} {o : ω}
    (h : P s o) (evs : List ε) : P (run step s evs) (record step obs s o evs) := by
  have hwatch : ∀ x e, P x.1 x.2 → P (watch step obs x e).1 (watch step obs x e).2 := fun x e hx =>
    hstep x.1 x.2 e hx
  have hrun := @run_invariant _ _ (watch step obs) (fun x => P x.1 x.2) hwatch (s, o) h evs
  rwa [run_watch] at hrun

end Watch

/-! ### Machines that can fault -/

section Exec
variable {σ ε : Type} (step : σ → ε → Option σ)

def exec : σ → List ε → Option σ
  | s, [] => some s
  | s, e :: evs => (step s e).bind fun t => exec t evs

theorem exec_cons (s : σ) (e : ε) (evs : List ε) :
    exec step s (e :: evs) = (step s e).bind fun t => exec step t evs := rfl

theorem exec_append (s : σ) (as bs : List ε) :
    exec step s (as ++ bs) = (exec step s as).bind fun t => exec step t bs := by
  induction as generalizing s with
  | nil => rfl
  | cons a as ih =>
    cases h : step s a with
    | none => simp [exec, h]
    | some t => simpa [exec, h] using ih t

theorem exec_concat (s : σ) (evs : List ε) (e : ε) :
    exec step s (evs ++ [e]) = (exec step s evs).bind fun t => step t e := by
  rw [exec_append]
  congr 1
  funext t
  cases h : step t e <;> simp [exec, h]

variable {step}

theorem exec_invariant {P : σ → Prop} (hstep : ∀ s e t, P s → step s e = some t → P t) {s : σ} (h : P s)
    {evs : List ε} {t : σ} (ht : exec step s evs = some t) : P t := by
  induction evs generalizing s with
  | nil =>
    cases ht
    exact h
  | cons e evs ih =>
    rw [exec_cons, Option.bind_eq_some_iff] at ht
    obtain ⟨u, hu, ht⟩ := ht
    exact ih (hstep s e u h hu) ht

/-- An invariant that mentions the events of the run so far. -/
theorem exec_history {P : List ε → σ → Prop} {s : σ} (h : P [] s)
    (hstep : ∀ evs s e t, P evs s → step s e = some t → P (evs ++ [e]) t) {evs : List ε} {t : σ}
    (ht : exec step s evs = some t) : P evs t := by
  induction evs using List.reverseRecOn generalizing t with
  | nil =>
    cases ht
    exact h
  | append_singleton evs e ih =>
    rw [exec_concat, Option.bind_eq_some_iff] at ht
    obtain ⟨u, hu, ht⟩ := ht
    exact hstep evs u e t (ih hu) ht

/-- The steps of `step` that `abs` maps to runs of an abstract machine carry over to whole runs. -/
theorem exec_simulation {σ' ε' : Type} {step' : σ' → ε' → σ'} {abs : σ → σ'} {act : σ → ε → List ε'}
    (hstep : ∀ s e t, step s e = some t → abs t = run step' (abs s) (act s e)) {s t : σ} {evs : List ε}
    (ht : exec step s evs = some t) : ∃ evs', abs t = run step' (abs s) evs' := by
  induction evs using List.reverseRecOn generalizing t with
  | nil =>
    cases ht
    exact ⟨[], rfl⟩
  | append_singleton evs e ih =>
    rw [exec_concat, Option.bind_eq_some_iff] at ht
    obtain ⟨u, hu, ht⟩ := ht
    obtain ⟨evs', h'⟩ := ih hu
    exact ⟨evs' ++ act u e, by rw [run_append, ← h', hstep u e t ht]⟩

end Exec

section ExecWatch
variable {σ ε ω : Type} (step : σ → ε → Option σ) (obs : ω → σ → ε → ω)

def execWatch (x : σ × ω) (e : ε) : Option (σ × ω) := (step x.1 e).map fun t => (t, obs x.2 x.1 e)

variable {step obs}

theorem execWatch_invariant {P : σ → ω → Prop} (hstep : ∀ s o e t, P s o → step s e = some t → P t (obs o s e))
    {s : σ} {o : ω} (h : P s o) {evs : List ε} {x : σ × ω} (hx : exec (execWatch step obs) (s, o) evs = some x) :
    P x.1 x.2 := by
  have hwatch : ∀ y e z, P y.1 y.2 → execWatch step obs y e = some z → P z.1 z.2 := by
    intro y e z hy hz
    rw [execWatch, Option.map_eq_some_iff] at hz
    obtain ⟨t, ht, rfl⟩ := hz
    exact hstep y.1 y.2 e t hy ht
  exact @exec_invariant _ _ _ (fun y => P y.1 y.2) hwatch (s, o) h evs x hx

end ExecWatch

end Machine
