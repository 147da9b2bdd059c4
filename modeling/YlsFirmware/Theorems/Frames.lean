import YlsFirmware.Theorems.FrameQueue

/-! # What becomes of the frames received

`main` calls `lwip_frame_recv` also after `enet_rxframe_size_get` has dropped a frame. What comes behind a bad frame is
then handed to lwIP without a check, or given back to the DMA without having been read. -/

namespace YlsFirmware
open Packed

/-- What the DMA has stored since it was last done with a descriptor, and the frames so far. -/
def arrive (z : List Byte × List Frame) : RxEvent → List Byte × List Frame
  | .store b => (z.1 ++ [b], z.2)
  | .close status => ([], z.2 ++ [⟨status &&& ~~~bit32 rdes0Dav, z.1⟩])
  | _ => z

/-- The frames that the DMA has stored during a run. -/
def arrivals (evs : List RxEvent) : List Frame := (Machine.run arrive ([], []) evs).2

/-- A bad frame is dropped, and a good one is handed to lwIP if there is memory. -/
def Proper (x : Frame × Fate) : Prop := if x.1.bad then x.2 = .dropped else x.2 = .handed ∨ x.2 = .noMemory

/-- A frame behind a good one is treated properly, and with the test of the interrupt handler every frame is. -/
def Fair (least : Nat) (taken : List (Frame × Fate)) : Prop :=
  ∀ as x bs, taken = as ++ x :: bs → 0 < least ∨ (∀ z ∈ as.getLast?, z.1.bad = false) → Proper x

/-- The frame that a pass has found at the front is good, or the pass has begun with dropping another one. -/
def Checked (least : Nat) (y : FrameQueue) (c : Option Frame) : Prop :=
  (∃ f, c = some f ∧ y.waiting.head? = some f ∧ f.bad = false) ∨ least = 0 ∧ ∃ z ∈ y.taken.getLast?, z.1.bad = true

structure QueueInv (least : Nat) (y : FrameQueue) : Prop where
  fair : Fair least y.taken
  input : y.pc = .input → Checked least y y.waiting.head?
  alloc : ∀ c, y.pc = .alloc c → Checked least y c
  receive : ∀ c ok, y.pc = .receive c ok → Checked least y c

theorem queueInv_init (least : Nat) : QueueInv least .init where
  fair := fun as x bs h => absurd h (by simp [FrameQueue.init])
  input := nofun
  alloc := nofun
  receive := nofun

section
variable {tfcd : Bool} {least : Nat} {y : FrameQueue}

theorem Checked.arrive {c : Option Frame} (h : Checked least y c) (f : Frame) :
    Checked least { y with waiting := y.waiting ++ [f] } c := by
  rcases h with ⟨g, hc, hhead, hbad⟩ | h
  · exact .inl ⟨g, hc, by rw [List.head?_append, hhead, Option.some_or], hbad⟩
  · exact .inr h

/-- The next frame is treated properly, unless it comes behind a bad one. -/
theorem Fair.take (h : Fair least y.taken) {x : Frame × Fate}
    (hx : 0 < least ∨ (∀ z ∈ y.taken.getLast?, z.1.bad = false) → Proper x) : Fair least (y.taken ++ [x]) :=
  Machine.forall_concat h hx

theorem queueInv_step (h : QueueInv least y) (e : QueueEvent) : QueueInv least (queueStep tfcd least y e) := by
  cases e with
  | arrive f =>
    refine ⟨h.fair, fun hpc => ?_, fun c hpc => (h.alloc c hpc).arrive f, fun c ok hpc => (h.receive c ok hpc).arrive f⟩
    rcases (h.input hpc).arrive f with ⟨g, hc, hhead, hbad⟩ | hlast
    · exact .inl ⟨g, hhead, hhead, hbad⟩
    · exact .inr hlast
  | sizeGet =>
    rw [queueStep]
    split
    · next f fs hpc hw =>
      cases hbad : f.bad with
      | false =>
        refine ⟨h.fair, fun _ => .inl ⟨f, ?_, ?_, hbad⟩, fun c hpc => ?_, fun c ok hpc => ?_⟩
        · rw [hw]
          rfl
        · rw [hw]
          rfl
        · split_ifs at hpc
        · split_ifs at hpc
      | true =>
        simp only [↓reduceIte]
        refine ⟨h.fair.take fun _ => ?_, fun hpc => .inr ⟨?_, ⟨(f, .dropped), ?_, hbad⟩⟩, fun c hpc => ?_,
          fun c ok hpc => ?_⟩
        · rw [Proper, if_pos hbad]
        · split_ifs at hpc with hleast
          exact Nat.lt_one_iff.mp hleast
        · simp
        · split_ifs at hpc
        · split_ifs at hpc
    · exact h
  | length =>
    rw [queueStep]
    split
    · next hpc =>
      refine ⟨h.fair, (fun h => by cases h), fun c hc => ?_, (fun _ _ h => by cases h)⟩
      cases hc
      exact h.input hpc
    · exact h
  | alloc ok =>
    rw [queueStep]
    split
    · next c hpc =>
      refine ⟨h.fair, (fun h => by cases h), (fun _ h => by cases h), fun c' ok' hc => ?_⟩
      cases hc
      exact h.alloc c hpc
    · exact h
  | receive =>
    rw [queueStep]
    split
    · next c ok f fs hpc hw =>
      refine ⟨h.fair.take fun hgood => ?_, (fun h => by cases h), (fun _ h => by cases h), (fun _ _ h => by cases h)⟩
      rcases h.receive c ok hpc with ⟨g, rfl, hhead, hbad⟩ | ⟨rfl, z, hz, hbad⟩
      · have hf : f = g := by
          rw [hw] at hhead
          exact Option.some.inj hhead
        rw [Proper, hf, if_neg (Bool.eq_false_iff.mp hbad)]
        cases ok with
        | false => exact .inr rfl
        | true => exact .inl rfl
      · rcases hgood with hleast | hgood
        · exact absurd hleast (Nat.lt_irrefl 0)
        · exact absurd hbad (Bool.eq_false_iff.mp (hgood z hz))
    · exact ⟨h.fair, (fun h => by cases h), (fun _ h => by cases h), (fun _ _ h => by cases h)⟩
    · exact h

/-- The frame that an event adds. -/
def QueueEvent.arrival : QueueEvent → List Frame
  | .arrive f => [f]
  | _ => []

theorem arrived_queueStep (e : QueueEvent) : (queueStep tfcd least y e).arrived = y.arrived ++ e.arrival := by
  cases e with
  | arrive f => exact (List.append_assoc _ _ _).symm
  | sizeGet =>
    rw [queueStep]
    split
    · next f fs hpc hw =>
      by_cases hbad : f.bad = true
      · rw [if_pos hbad]
        simp [FrameQueue.arrived, QueueEvent.arrival, hw]
      · rw [if_neg hbad]
        exact (List.append_nil _).symm
    · exact (List.append_nil _).symm
  | length =>
    rw [queueStep]
    split <;> exact (List.append_nil _).symm
  | alloc ok =>
    rw [queueStep]
    split <;> exact (List.append_nil _).symm
  | receive =>
    rw [queueStep]
    split
    · next c ok f fs hpc hw => simp [FrameQueue.arrived, QueueEvent.arrival, hw]
    · exact (List.append_nil _).symm
    · exact (List.append_nil _).symm

/-- What `pbuf_alloc` has returned for a frame that was handed over or lost. -/
def Fate.allocated : Fate → Option Bool
  | .handed => some true
  | .noMemory => some false
  | _ => none

/-- The allocations for the frames of the queue: those of the frames taken, and of the one that is being received. -/
def FrameQueue.allocated (y : FrameQueue) : List Bool :=
  (y.taken.filterMap fun z => z.2.allocated) ++
    match y.pc with
    | .receive (some _) ok => [ok]
    | _ => []

/-- The allocation that an event is. -/
def QueueEvent.allocation : QueueEvent → List Bool
  | .alloc ok => [ok]
  | _ => []

theorem allocated_of (f : Frame) (ok : Bool) : (Fate.of (some f) ok).allocated = some ok := by
  cases ok <;> rfl

theorem allocated_take (taken : List (Frame × Fate)) (f : Frame) (fate : Fate) :
    ((taken ++ [(f, fate)]).filterMap fun z => z.2.allocated) =
      (taken.filterMap fun z => z.2.allocated) ++ fate.allocated.toList := by
  rw [List.filterMap_append]
  cases h : fate.allocated <;> simp [h]

/-- A step adds an allocation for a frame only where it allocates. -/
theorem allocated_queueStep (e : QueueEvent) :
    (queueStep tfcd least y e).allocated.Sublist (y.allocated ++ e.allocation) := by
  have hno : ∀ z : FrameQueue, z.taken = y.taken → (∀ f ok, z.pc ≠ .receive (some f) ok) →
      z.allocated.Sublist (y.allocated ++ e.allocation) := fun z hz hpc => by
    have hnil : z.allocated = (y.taken.filterMap fun z => z.2.allocated) := by
      rw [FrameQueue.allocated, hz]
      split
      · next f ok heq => exact absurd heq (hpc f ok)
      · exact List.append_nil _
    rw [hnil, FrameQueue.allocated, List.append_assoc]
    exact List.sublist_append_left _ _
  have hsame : y.allocated.Sublist (y.allocated ++ e.allocation) := List.sublist_append_left _ _
  cases e with
  | arrive f => exact hsame
  | sizeGet =>
    rw [queueStep]
    split
    · next f fs hpc hw =>
      by_cases hbad : f.bad = true
      · rw [if_pos hbad]
        have htake := allocated_take y.taken f .dropped
        rw [FrameQueue.allocated, htake, FrameQueue.allocated, hpc]
        split_ifs <;> simp [Fate.allocated, QueueEvent.allocation]
      · rw [if_neg hbad]
        refine hno _ rfl fun g ok heq => ?_
        dsimp only at heq
        split_ifs at heq
    · exact hsame
  | length =>
    rw [queueStep]
    split
    · exact hno _ rfl fun _ _ h => by cases h
    · exact hsame
  | alloc ok =>
    rw [queueStep]
    split
    · next c hpc =>
      rw [FrameQueue.allocated, FrameQueue.allocated, hpc, List.append_nil]
      refine List.Sublist.append_left ?_ _
      cases c with
      | none => exact List.nil_sublist _
      | some f => exact List.Sublist.refl _
    · exact hsame
  | receive =>
    rw [queueStep]
    split
    · next c ok f fs hpc hw =>
      rw [FrameQueue.allocated, FrameQueue.allocated, hpc, allocated_take, List.append_nil, List.append_assoc]
      refine List.Sublist.append_left ?_ _
      cases c with
      | none => exact List.nil_sublist _
      | some g =>
        rw [allocated_of]
        exact List.Sublist.refl _
    · exact hno _ rfl fun _ _ h => by cases h
    · exact hsame

end

/-! ### Runs -/

/-- What `pbuf_alloc` has returned during a run. -/
def allocations (evs : List RxEvent) : List Bool :=
  evs.filterMap fun
    | .alloc ok => some ok
    | _ => none

/-- All pbufs that are asked for are there. -/
def Provided (evs : List RxEvent) : Prop := ∀ ok, .alloc ok ∈ evs → ok = true

theorem Provided.allocations {evs : List RxEvent} (h : Provided evs) : false ∉ allocations evs := by
  intro hmem
  obtain ⟨e, he, hok⟩ := List.mem_filterMap.mp hmem
  cases e with
  | alloc ok =>
    cases hok
    cases h _ he
  | _ => cases hok

/-- The queue of a run: its frames are those that the DMA has stored. -/
structure RxHistory (tfcd : Bool) (least : Nat) (evs : List RxEvent) (x : Rx) (y : FrameQueue) : Prop where
  refines : Refines tfcd x y
  inv : QueueInv least y
  arrived : Machine.run arrive ([], []) evs = (x.stored, y.arrived)
  allocated : y.allocated.Sublist (allocations evs)

section
variable {tfcd : Bool} {least : Nat} {evs : List RxEvent} {x x' : Rx} {y : FrameQueue}

theorem rxHistory_init (tfcd : Bool) (least : Nat) : RxHistory tfcd least [] .init .init where
  refines := refines_init tfcd
  inv := queueInv_init least
  arrived := rfl
  allocated := List.Sublist.refl _

/-- What the DMA has stored and what has arrived in the queue, step by step. -/
theorem arrive_step {e : RxEvent} (hstep : rxStep tfcd least x e = some x') :
    arrive (x.stored, y.arrived) e =
      (x'.stored, (Machine.run (queueStep tfcd least) y (queueEvents x e)).arrived) := by
  have hsame : ∀ e : QueueEvent, e.arrival = [] → y.arrived = (queueStep tfcd least y e).arrived := fun e he => by
    rw [arrived_queueStep, he, List.append_nil]
  cases e with
  | sizeGet =>
    obtain ⟨-, rfl⟩ := rxStep_sizeGet hstep
    exact Prod.ext rfl (hsame .sizeGet rfl)
  | length =>
    obtain ⟨-, rfl⟩ := rxStep_length hstep
    exact Prod.ext rfl (hsame .length rfl)
  | alloc ok =>
    obtain ⟨len, buffer, -, rfl⟩ := rxStep_alloc hstep
    exact Prod.ext rfl (hsame (.alloc ok) rfl)
  | copy => rcases rxStep_copy hstep with ⟨done, src, len, lens, -, rfl⟩ | ⟨done, src, -, rfl⟩ <;> rfl
  | receive =>
    obtain ⟨p, -, rfl⟩ := rxStep_receive hstep
    exact Prod.ext rfl (hsame .receive rfl)
  | store b =>
    obtain ⟨-, -, rfl⟩ := rxStep_store hstep
    rfl
  | close status =>
    obtain ⟨-, rfl⟩ := rxStep_close hstep
    exact Prod.ext rfl (@arrived_queueStep tfcd least y (.arrive _)).symm

theorem RxHistory.step (h : RxHistory tfcd least evs x y) {e : RxEvent} (hstep : rxStep tfcd least x e = some x') :
    RxHistory tfcd least (evs ++ [e]) x' (Machine.run (queueStep tfcd least) y (queueEvents x e)) where
  refines := refines_step h.refines hstep
  inv := @Machine.run_invariant _ _ (queueStep tfcd least) (QueueInv least) (fun _ e hy => queueInv_step hy e) y h.inv _
  arrived := by
    rw [Machine.run_concat, h.arrived]
    exact arrive_step hstep
  allocated := by
    have hsub : ∀ e : QueueEvent, (queueStep tfcd least y e).allocated.Sublist (allocations evs ++ e.allocation) :=
      fun e => (allocated_queueStep e).trans (List.Sublist.append_right h.allocated _)
    rw [allocations, List.filterMap_append, ← allocations]
    cases e with
    | alloc ok => exact hsub (.alloc ok)
    | copy => exact List.Sublist.trans h.allocated (List.sublist_append_left _ _)
    | store b => exact List.Sublist.trans h.allocated (List.sublist_append_left _ _)
    | sizeGet => exact hsub .sizeGet
    | length => exact hsub .length
    | receive => exact hsub .receive
    | close status => exact hsub (.arrive _)

theorem exists_rxHistory (h : Machine.exec (rxStep tfcd least) .init evs = some x) :
    ∃ y, RxHistory tfcd least evs x y := by
  refine @Machine.exec_history _ _ (rxStep tfcd least) (fun evs x => ∃ y, RxHistory tfcd least evs x y) .init
    ⟨.init, rxHistory_init tfcd least⟩ (fun evs s e t hs ht => ?_) evs x h
  obtain ⟨y, hy⟩ := hs
  exact ⟨_, hy.step ht⟩

/-- The allocations for the frames that have left the ring. -/
theorem RxHistory.taken_allocated (h : RxHistory tfcd least evs x y) :
    (y.taken.filterMap fun z => z.2.allocated).Sublist (allocations evs) :=
  List.Sublist.trans (List.sublist_append_left _ _) h.allocated

/-- In every run, the frames come out of the ring in the order in which the DMA has stored them, each of them once, and
    what is handed to lwIP carries their bytes. Each frame handed over or lost has an allocation of its own, that has
    succeeded or failed. -/
theorem frames_inOrder (h : Machine.exec (rxStep tfcd least) .init evs = some x) :
    ∃ taken waiting, arrivals evs = taken.map Prod.fst ++ waiting ∧ waiting.length ≤ enetBufNum ∧ Fair least taken ∧
      (taken.filterMap fun z => z.2.allocated).Sublist (allocations evs) ∧
      List.Forall₂ (fun f p => Carries (f.length tfcd) f p) (handed tfcd taken)
        (x.inputs.filter fun p => 0 < chainLen p) := by
  obtain ⟨y, hy⟩ := exists_rxHistory h
  exact ⟨y.taken, y.waiting, by rw [arrivals, hy.arrived]; rfl, hy.refines.holds.le, hy.inv.fair, hy.taken_allocated,
    hy.refines.inputs⟩

/-- A bad frame and, while it is being dropped, a good one. -/
def badGood : List RxEvent :=
  [.store 7, .close 0x00058300#32, .sizeGet, .store 8, .close 0x00050300#32, .length]

theorem frames_inOrder_badGood :
    ∃ x, Machine.exec (rxStep false 0) .init badGood = some x ∧
      ∃ taken waiting, arrivals badGood = taken.map Prod.fst ++ waiting ∧ waiting.length ≤ enetBufNum ∧ Fair 0 taken ∧
        (taken.filterMap fun z => z.2.allocated).Sublist (allocations badGood) ∧
        List.Forall₂ (fun f p => Carries (f.length false) f p) (handed false taken)
          (x.inputs.filter fun p => 0 < chainLen p) :=
  ⟨_, rfl, frames_inOrder rfl⟩

/-! ### Frames that are served -/

/-- Of the frames that have left the ring, exactly the good ones have been handed to lwIP. -/
def Served (tfcd : Bool) (evs : List RxEvent) (x : Rx) : Prop :=
  ∃ done waiting, arrivals evs = done ++ waiting ∧
    Ring.Holds enetBufNum (RxFull x.ring.rxdescTab x.ring.rxBuff) (RxFree x.ring.rxdescTab)
      x.ring.dmaCurrentRxdesc x.crdaddr waiting ∧
    List.Forall₂ (fun f p => Carries (f.length tfcd) f p) (done.filter fun f => !f.bad && decide (0 < f.length tfcd))
      (x.inputs.filter fun p => 0 < chainLen p)

theorem handed_of_proper {taken : List (Frame × Fate)} (h : ∀ z ∈ taken, Proper z)
    (hspared : ∀ z ∈ taken, z.2 ≠ .noMemory) :
    handed tfcd taken = (taken.map Prod.fst).filter fun f => !f.bad && decide (0 < f.length tfcd) := by
  rw [handed, List.filter_map]
  congr 1
  refine List.filter_congr fun z hz => ?_
  have hproper := h z hz
  rw [Proper] at hproper
  cases hbad : z.1.bad with
  | true =>
    rw [if_pos hbad] at hproper
    simp [hproper, hbad]
  | false =>
    rw [if_neg (Bool.eq_false_iff.mp hbad)] at hproper
    simp [hproper.resolve_right (hspared z hz), hbad]

theorem RxHistory.served (h : RxHistory tfcd least evs x y) (hprov : Provided evs) (hproper : ∀ z ∈ y.taken, Proper z) :
    Served tfcd evs x := by
  refine ⟨y.taken.map Prod.fst, y.waiting, by rw [arrivals, h.arrived]; rfl, h.refines.holds, ?_⟩
  have hspared : ∀ z ∈ y.taken, z.2 ≠ .noMemory := fun z hz hlost =>
    hprov.allocations (h.taken_allocated.subset (List.mem_filterMap.mpr ⟨z, hz, by rw [hlost]; rfl⟩))
  rw [← handed_of_proper hproper hspared]
  exact h.refines.inputs

theorem mem_dropLast {α : Type} (as : List α) (x : α) {bs : List α} (hbs : bs ≠ []) : x ∈ (as ++ x :: bs).dropLast := by
  rw [List.dropLast_append_cons, List.dropLast_cons_of_ne_nil hbs]
  exact List.mem_append_right _ List.mem_cons_self

theorem served_of_good (h : Machine.exec (rxStep tfcd least) .init evs = some x) (hprov : Provided evs)
    {F : List Frame} (hF : arrivals evs <+: F) (hgood : ∀ f ∈ F.dropLast, f.bad = false) : Served tfcd evs x := by
  obtain ⟨y, hy⟩ := exists_rxHistory h
  refine hy.served hprov fun z hz => ?_
  obtain ⟨as, bs, hsplit⟩ := List.append_of_mem hz
  refine hy.inv.fair as z bs hsplit (.inr fun w hw => hgood w.1 ?_)
  obtain ⟨as', rfl⟩ := List.getLast?_eq_some_iff.mp hw
  obtain ⟨G, rfl⟩ := hF
  have harrived : arrivals evs ++ G = as'.map Prod.fst ++ w.1 :: (z.1 :: (bs.map Prod.fst ++ y.waiting ++ G)) := by
    rw [arrivals, hy.arrived, FrameQueue.arrived, hsplit]
    simp
  rw [harrived]
  exact mem_dropLast _ _ (List.cons_ne_nil _ _)

end

/-! ### Schedules

What the queue can do the ring can do as well. -/

section
variable {tfcd : Bool} {least : Nat} {x : Rx} {y : FrameQueue}

theorem exec_storeAll (h : Refines tfcd x y) (hroom : y.waiting.length < enetBufNum) (bs : List Byte)
    (hfits : x.stored.length + bs.length ≤ enetMaxFrameSize) :
    ∃ x', Machine.exec (rxStep tfcd least) x (bs.map .store) = some x' ∧ Refines tfcd x' y ∧
      x'.stored = x.stored ++ bs ∧ x'.pc = x.pc := by
  induction bs generalizing x with
  | nil => exact ⟨x, rfl, h, (List.append_nil _).symm, rfl⟩
  | cons b bs ih =>
    have hdav := h.dav_crdaddr.mpr hroom
    have hlt : x.stored.length < ((x.ring.rxdescTab x.crdaddr).controlBufferSize &&& 0x1FFF#32).toNat := by
      rw [h.chained.control _ h.holds.head_lt]
      rw [List.length_cons] at hfits
      exact Nat.lt_of_lt_of_le (Nat.lt_add_of_pos_right (Nat.succ_pos _)) hfits
    obtain ⟨x₁, hstep⟩ : ∃ x₁, rxStep tfcd least x (.store b) = some x₁ := by
      rw [rxStep]
      simp only [hdav, hlt, decide_true, Bool.and_true, ↓reduceIte]
      exact ⟨_, rfl⟩
    obtain ⟨-, -, hx₁⟩ := rxStep_store hstep
    have hstored : x₁.stored = x.stored ++ [b] := by rw [hx₁]
    have hpc : x₁.pc = x.pc := by rw [hx₁]
    obtain ⟨x', hexec, href, hx', hpc'⟩ := ih (refines_store h hstep) (by
      rw [hstored, List.length_append, List.length_singleton]
      rw [List.length_cons] at hfits
      omega)
    refine ⟨x', ?_, href, ?_, hpc'.trans hpc⟩
    · rw [List.map_cons, Machine.exec_cons, hstep]
      exact hexec
    · rw [hx', hstored, List.append_assoc]
      rfl

theorem exec_copies (h : Refines tfcd x y) {done : List Segment} {src : Nat} {lens : List Nat}
    (hpc : x.pc = .copy done src lens) :
    ∃ x' p, Machine.exec (rxStep tfcd least) x (List.replicate (lens.length + 1) .copy) = some x' ∧
      Refines tfcd x' y ∧ x'.stored = x.stored ∧ x'.pc = .receive p := by
  induction lens generalizing x done src with
  | nil =>
    have hstep : rxStep tfcd least x .copy = some { x with pc := .receive done } := by
      rw [rxStep, hpc]
    refine ⟨_, done, ?_, refines_copy h hstep, rfl, rfl⟩
    rw [List.length_nil, List.replicate_succ, Machine.exec_cons, hstep]
    rfl
  | cons len lens ih =>
    have hstep : rxStep tfcd least x .copy =
        some { x with pc := .copy (done ++ [⟨ofBytes (read x.ring.rxBuff src len), len⟩]) (src + len) lens } := by
      rw [rxStep, hpc]
    obtain ⟨x', p, hexec, href, hstored, hpc'⟩ := ih (refines_copy h hstep) rfl
    refine ⟨x', p, ?_, href, hstored, hpc'⟩
    rw [List.length_cons, List.replicate_succ, Machine.exec_cons, hstep]
    exact hexec

/-- The event can come next; a frame that arrives is one that the DMA can store. -/
def Able (y : FrameQueue) : QueueEvent → Prop
  | .arrive f => y.waiting.length < enetBufNum ∧ f.bytes.length ≤ enetMaxFrameSize ∧ f.status.getLsbD rdes0Dav = false
  | .sizeGet => y.pc = .idle
  | .length => y.pc = .input
  | .alloc ok => ok = true ∧ ∃ c, y.pc = .alloc c
  | .receive => ∃ c, y.pc = .receive c true

/-- The ring can take the events `es` as well, when no frame is half stored. -/
def Followed (tfcd : Bool) (least : Nat) (x : Rx) (y : FrameQueue) (es : List QueueEvent) : Prop :=
  ∃ evs x', Machine.exec (rxStep tfcd least) x evs = some x' ∧
    Refines tfcd x' (Machine.run (queueStep tfcd least) y es) ∧
    x'.stored = [] ∧ Provided evs ∧ ∀ fs, Machine.run arrive ([], fs) evs = ([], fs ++ es.flatMap QueueEvent.arrival)

theorem run_arrive_stores (bs : List Byte) (z : List Byte × List Frame) :
    Machine.run arrive z (bs.map .store) = (z.1 ++ bs, z.2) := by
  induction bs generalizing z with
  | nil => exact Prod.ext (List.append_nil _).symm rfl
  | cons b bs ih =>
    rw [List.map_cons, Machine.run_cons, ih]
    exact Prod.ext (List.append_assoc _ _ _) rfl

theorem provided_of_forall {evs : List RxEvent} (h : ∀ e ∈ evs, ∀ ok, e = .alloc ok → ok = true) : Provided evs :=
  fun ok hok => h _ hok ok rfl

/-- A frame can arrive whenever there is room. -/
theorem followed_arrive (h : Refines tfcd x y) (hs : x.stored = []) {f : Frame} (he : Able y (.arrive f)) :
    Followed tfcd least x y [.arrive f] := by
  obtain ⟨hroom, hfits, howned⟩ := he
  have hlen : x.stored.length + f.bytes.length ≤ enetMaxFrameSize := by
    rw [hs, List.length_nil, Nat.zero_add]
    exact hfits
  obtain ⟨x₁, hexec, href, hstored, -⟩ := @exec_storeAll tfcd least x y h hroom f.bytes hlen
  rw [hs, List.nil_append] at hstored
  obtain ⟨x', hstep⟩ : ∃ x', rxStep tfcd least x₁ (.close f.status) = some x' := by
    rw [rxStep]
    simp only [href.dav_crdaddr.mpr hroom, ↓reduceIte]
    exact ⟨_, rfl⟩
  have hstatus : f.status &&& ~~~bit32 rdes0Dav = f.status := by
    refine BitVec.eq_of_getLsbD_eq fun i hi => ?_
    rcases eq_or_ne i rdes0Dav with rfl | hne
    · rw [howned]
      simp [bit32, rdes0Dav]
    · rw [BitVec.getLsbD_and, BitVec.getLsbD_not, bit32, getLsbD_one_shiftLeft hi]
      simp [hi, hne]
  have hclose := refines_close href hstep
  rw [hstatus, hstored] at hclose
  refine ⟨f.bytes.map .store ++ [.close f.status], x', ?_, hclose, ?_, ?_, fun fs => ?_⟩
  · rw [Machine.exec_append, hexec, Option.bind_some, Machine.exec_cons, hstep]
    rfl
  · obtain ⟨-, hx'⟩ := rxStep_close hstep
    rw [hx']
  · refine provided_of_forall fun e he ok hok => ?_
    subst hok
    rcases List.mem_append.mp he with he | he
    · obtain ⟨b, -, hb⟩ := List.mem_map.mp he
      cases hb
    · cases List.mem_singleton.mp he
  · rw [Machine.run_append, run_arrive_stores, Machine.run_cons, Machine.run_nil, arrive, hstatus]
    rfl

/-- A step of the main loop that is one step of the ring. -/
theorem followed_step (h : Refines tfcd x y) (hs : x.stored = []) {e : RxEvent} (hok : ∀ ok, e = .alloc ok → ok = true)
    (hstored : ∀ x', rxStep tfcd least x e = some x' → x'.stored = x.stored) (harrive : ∀ z, arrive z e = z)
    (harrival : (queueEvents x e).flatMap QueueEvent.arrival = [])
    (hstep : rxStep tfcd least x e ≠ none) : Followed tfcd least x y (queueEvents x e) := by
  obtain ⟨x', hx'⟩ := Option.ne_none_iff_exists'.mp hstep
  refine ⟨[e], x', ?_, refines_step h hx', (hstored x' hx').trans hs, provided_of_forall fun e' he' ok hk => ?_,
    fun fs => ?_⟩
  · rw [Machine.exec_cons, hx']
    rfl
  · exact hok ok (List.mem_singleton.mp he' ▸ hk)
  · rw [Machine.run_cons, Machine.run_nil, harrive, harrival, List.append_nil]

theorem followed_receive (h : Refines tfcd x y) (hs : x.stored = []) {p : List Segment} (hpc : x.pc = .receive p) :
    Followed tfcd least x y [.receive] := by
  refine @followed_step tfcd least x y h hs .receive (fun _ h => by cases h) (fun x' hx' => ?_) (fun _ => rfl) rfl ?_
  · obtain ⟨-, -, rfl⟩ := rxStep_receive hx'
    rfl
  · rw [rxStep, hpc]
    exact Option.some_ne_none _

/-- The ring can take every event that the queue can take. -/
theorem followed_of_able (h : Refines tfcd x y) (hs : x.stored = []) {e : QueueEvent} (he : Able y e) :
    Followed tfcd least x y [e] := by
  have haligned := h.aligned
  generalize hpc : x.pc = pc at haligned
  cases e with
  | arrive f => exact followed_arrive h hs he
  | sizeGet =>
    rw [show y.pc = .idle from he] at haligned
    cases haligned
    refine @followed_step tfcd least x y h hs .sizeGet (fun _ h => by cases h) (fun x' hx' => ?_) (fun _ => rfl) rfl ?_
    · obtain ⟨-, rfl⟩ := rxStep_sizeGet hx'
      rfl
    · rw [rxStep, hpc]
      exact Option.some_ne_none _
  | length =>
    rw [show y.pc = .input from he] at haligned
    cases haligned
    refine @followed_step tfcd least x y h hs .length (fun _ h => by cases h) (fun x' hx' => ?_) (fun _ => rfl) rfl ?_
    · obtain ⟨-, rfl⟩ := rxStep_length hx'
      rfl
    · rw [rxStep, hpc]
      exact Option.some_ne_none _
  | alloc ok =>
    obtain ⟨rfl, c, hc⟩ := he
    rw [hc] at haligned
    cases haligned
    refine @followed_step tfcd least x y h hs (.alloc true) (fun ok hok => ?_) (fun x' hx' => ?_) (fun _ => rfl) rfl ?_
    · cases hok
      rfl
    · obtain ⟨len, buffer, -, rfl⟩ := rxStep_alloc hx'
      rfl
    · rw [rxStep, hpc]
      exact Option.some_ne_none _
  | receive =>
    obtain ⟨c, hc⟩ := he
    rw [hc] at haligned
    cases haligned with
    | receive => exact followed_receive h hs hpc
    | @copy _ _ lens =>
      obtain ⟨x₁, p, hexec, href, hstored, hpc₁⟩ := @exec_copies tfcd least x y h _ _ _ hpc
      obtain ⟨evs, x', hexec', href', hstored', hprov, harr⟩ := @followed_receive tfcd least x₁ y href
        (hstored.trans hs) p hpc₁
      refine ⟨List.replicate (lens.length + 1) .copy ++ evs, x', ?_, href', hstored', fun ok hok => ?_, fun fs => ?_⟩
      · rw [Machine.exec_append, hexec, Option.bind_some]
        exact hexec'
      · rcases List.mem_append.mp hok with hok | hok
        · cases List.eq_of_mem_replicate hok
        · exact hprov ok hok
      · have hcopies : Machine.run arrive ([], fs) (List.replicate (lens.length + 1) .copy) = ([], fs) :=
          @Machine.run_frame _ _ arrive _ id (fun e => e = .copy) (fun z e he => by rw [he]; rfl) _
            (fun e he => List.eq_of_mem_replicate he) ([], fs)
        rw [Machine.run_append, hcopies]
        exact harr fs

/-- The events can come one after the other. -/
def AbleRun (tfcd : Bool) (least : Nat) : FrameQueue → List QueueEvent → Prop
  | _, [] => True
  | y, e :: es => Able y e ∧ AbleRun tfcd least (queueStep tfcd least y e) es

theorem followed_of_ableRun (h : Refines tfcd x y) (hs : x.stored = []) {es : List QueueEvent}
    (hes : AbleRun tfcd least y es) : Followed tfcd least x y es := by
  induction es generalizing x y with
  | nil => exact ⟨[], x, rfl, h, hs, nofun, fun fs => by rw [List.flatMap_nil, List.append_nil]; rfl⟩
  | cons e es ih =>
    obtain ⟨he, hes⟩ := hes
    obtain ⟨evs, x₁, hexec, href, hstored, hprov, harr⟩ := @followed_of_able tfcd least x y h hs e he
    obtain ⟨evs', x', hexec', href', hstored', hprov', harr'⟩ := ih href hstored hes
    refine ⟨evs ++ evs', x', ?_, href', hstored', fun ok hok => ?_, fun fs => ?_⟩
    · rw [Machine.exec_append, hexec]
      exact hexec'
    · exact (List.mem_append.mp hok).elim (hprov ok) (hprov' ok)
    · rw [Machine.run_append, harr, harr', List.flatMap_cons, List.flatMap_cons, List.flatMap_nil, List.append_nil,
        List.append_assoc]

/-- The DMA can store the frame, and it is not empty. -/
structure Storable (tfcd : Bool) (f : Frame) : Prop where
  owned : f.status.getLsbD rdes0Dav = false
  fits : f.bytes.length ≤ enetMaxFrameSize
  pos : 0 < f.length tfcd

theorem Storable.size_pos {f : Frame} (h : Storable tfcd f) : 0 < f.size tfcd := by
  have hpos := h.pos
  rw [Frame.length, rxdescFrameLength] at hpos
  split_ifs at hpos with hlt htype
  · rw [Frame.size, if_pos htype]
    exact Nat.pos_of_ne_zero fun hzero => by rw [hzero] at hpos; exact absurd hpos (Nat.lt_irrefl 0)
  · rw [Frame.size, if_neg htype]
    exact Nat.pos_of_ne_zero fun hzero => by rw [hzero] at hpos; exact absurd hpos (Nat.lt_irrefl 0)
  · exact absurd hpos (Nat.lt_irrefl 0)

/-- A frame that arrives alone, and the pass that takes it. -/
def alone (f : Frame) : List QueueEvent := [.arrive f, .sizeGet, .length, .alloc true, .receive]

theorem run_alone {f : Frame} (hf : Storable tfcd f) (taken : List (Frame × Fate)) :
    AbleRun tfcd 0 ⟨[], .idle, taken⟩ (alone f) ∧
      Machine.run (queueStep tfcd 0) ⟨[], .idle, taken⟩ (alone f) =
        ⟨[], .idle, taken ++ [(f, if f.bad then .dropped else .handed)]⟩ := by
  cases hbad : f.bad with
  | false =>
    simp [alone, AbleRun, Able, queueStep, Machine.run, hbad, hf.size_pos, hf.owned, hf.fits, Fate.of, enetBufNum]
  | true => simp [alone, AbleRun, Able, queueStep, Machine.run, hbad, hf.owned, hf.fits, enetBufNum]

theorem ableRun_append (y : FrameQueue) (es es' : List QueueEvent) :
    AbleRun tfcd least y (es ++ es') ↔
      AbleRun tfcd least y es ∧ AbleRun tfcd least (Machine.run (queueStep tfcd least) y es) es' := by
  induction es generalizing y with
  | nil => exact (iff_of_eq (true_and _)).symm
  | cons e es ih => exact (and_congr_right fun _ => ih _).trans (and_assoc).symm

/-- What becomes of frames that arrive alone. -/
def fates (F : List Frame) : List (Frame × Fate) := F.map fun f => (f, if f.bad then .dropped else .handed)

theorem run_fates {F : List Frame} (hF : ∀ f ∈ F, Storable tfcd f) (taken : List (Frame × Fate)) :
    AbleRun tfcd 0 ⟨[], .idle, taken⟩ (F.flatMap alone) ∧
      Machine.run (queueStep tfcd 0) ⟨[], .idle, taken⟩ (F.flatMap alone) = ⟨[], .idle, taken ++ fates F⟩ := by
  induction F generalizing taken with
  | nil => exact ⟨trivial, by rw [fates, List.map_nil, List.append_nil]; rfl⟩
  | cons f F ih =>
    obtain ⟨hable, hrun⟩ := run_alone (hF f List.mem_cons_self) taken
    obtain ⟨hable', hrun'⟩ := ih (fun g hg => hF g (List.mem_cons_of_mem _ hg))
      (taken ++ [(f, if f.bad then .dropped else .handed)])
    rw [List.flatMap_cons, ableRun_append, Machine.run_append, hrun, hrun', fates, fates, List.map_cons,
      List.append_assoc]
    exact ⟨⟨hable, hable'⟩, rfl⟩

/-- Frame `g` arrives behind the bad frame `b`: before the length is read if it is bad as well, and else before the
    descriptor is given back. -/
def behind (b g : Frame) : List QueueEvent :=
  if g.bad then [.arrive b, .arrive g, .sizeGet, .length, .alloc true, .receive]
  else [.arrive b, .sizeGet, .length, .arrive g, .alloc true, .receive]

theorem run_behind {b g : Frame} (hb : Storable tfcd b) (hg : Storable tfcd g) (hbad : b.bad = true)
    (taken : List (Frame × Fate)) :
    AbleRun tfcd 0 ⟨[], .idle, taken⟩ (behind b g) ∧
      Machine.run (queueStep tfcd 0) ⟨[], .idle, taken⟩ (behind b g) =
        ⟨[], .idle, taken ++ [(b, .dropped), (g, if g.bad then .handed else .unread)]⟩ := by
  cases hgbad : g.bad with
  | false =>
    simp [behind, AbleRun, Able, queueStep, Machine.run, hbad, hgbad, hb.owned, hb.fits, hg.owned, hg.fits, Fate.of,
      enetBufNum]
  | true =>
    simp [behind, AbleRun, Able, queueStep, Machine.run, hbad, hgbad, hb.owned, hb.fits, hg.owned, hg.fits, Fate.of,
      enetBufNum]

theorem handed_append (as bs : List (Frame × Fate)) : handed tfcd (as ++ bs) = handed tfcd as ++ handed tfcd bs := by
  rw [handed, List.filter_append, List.map_append]
  rfl

theorem handed_fates (F : List Frame) :
    handed tfcd (fates F) = F.filter fun f => !f.bad && decide (0 < f.length tfcd) := by
  have hmap : (fates F).map Prod.fst = F := by
    simp [fates, Function.comp_def]
  rw [handed_of_proper, hmap]
  · intro z hz
    obtain ⟨f, -, rfl⟩ := List.mem_map.mp hz
    rw [Proper]
    split_ifs <;> simp_all
  · intro z hz
    obtain ⟨f, -, rfl⟩ := List.mem_map.mp hz
    dsimp only
    split_ifs <;> exact fun h => by cases h

/-- Behind a bad frame, no frame is safe. -/
theorem not_served_behind {A B : List Frame} {b g : Frame} (hF : ∀ f ∈ A ++ b :: g :: B, Storable tfcd f)
    (hbad : b.bad = true) :
    ∃ evs x, Machine.exec (rxStep tfcd 0) .init evs = some x ∧ Provided evs ∧ arrivals evs <+: A ++ b :: g :: B ∧
      ¬ Served tfcd evs x := by
  obtain ⟨hableA, hrunA⟩ := @run_fates tfcd A (fun f hf => hF f (List.mem_append_left _ hf)) []
  obtain ⟨hable, hrun⟩ := run_behind (hF b (by simp)) (hF g (by simp)) hbad (fates A)
  have hinit : FrameQueue.init = ⟨[], .idle, []⟩ := rfl
  have hableAll : AbleRun tfcd 0 .init (A.flatMap alone ++ behind b g) :=
    (ableRun_append _ _ _).mpr ⟨hableA, hrunA ▸ hable⟩
  obtain ⟨evs, x, hexec, href, -, hprov, harr⟩ := followed_of_ableRun (refines_init tfcd) rfl hableAll
  have hbehind : (behind b g).flatMap QueueEvent.arrival = [b, g] := by
    rw [behind]
    split_ifs <;> rfl
  have halone : (A.flatMap alone).flatMap QueueEvent.arrival = A := by
    rw [List.flatMap_assoc]
    exact List.flatMap_singleton' A
  have harrivals : arrivals evs = A ++ [b, g] := by
    rw [arrivals, harr, List.flatMap_append, hbehind, halone]
    rfl
  refine ⟨evs, x, hexec, hprov, ?_, ?_⟩
  · rw [harrivals]
    exact ⟨B, by simp⟩
  rintro ⟨done, waiting, hsplit, hholds, hinputs⟩
  rw [Machine.run_append, hinit, hrunA, List.nil_append, hrun] at href
  -- nothing is left in the ring, so all of them are done
  have hwaiting : waiting = [] := by
    have hle := hholds.length_le href.holds fun i f hfull hfree => by
      have hdav := hfull.owned
      rw [← hfull.status, hfree] at hdav
      cases hdav
    exact List.eq_nil_of_length_eq_zero (Nat.le_zero.mp hle)
  rw [hwaiting, List.append_nil, harrivals] at hsplit
  have hlen := hinputs.length_eq.trans href.inputs.length_eq.symm
  rw [← hsplit, handed_append, handed_fates, List.filter_append, List.length_append, List.length_append] at hlen
  have hg := (hF g (by simp)).pos
  cases hgbad : g.bad <;> simp [handed, hbad, hgbad, hg] at hlen

/-- Whatever the order of the steps, the main loop serves a sequence of frames properly if and only if all of them but
    the last one are good. -/
theorem served_iff {F : List Frame} (hF : ∀ f ∈ F, Storable tfcd f) :
    (∀ evs x, Machine.exec (rxStep tfcd 0) .init evs = some x → Provided evs → arrivals evs <+: F →
      Served tfcd evs x) ↔ ∀ f ∈ F.dropLast, f.bad = false := by
  constructor
  · intro h f hf
    by_contra hbad
    obtain ⟨A, bs, hsplit⟩ := List.append_of_mem hf
    have hne : F ≠ [] := by
      rintro rfl
      exact absurd hf List.not_mem_nil
    obtain ⟨g, B, hbs⟩ := List.exists_cons_of_ne_nil
      (List.append_ne_nil_of_right_ne_nil bs (List.cons_ne_nil (F.getLast hne) []))
    have hsplit' : F = A ++ f :: g :: B := by
      rw [← hbs, ← List.cons_append, ← List.append_assoc, ← hsplit, List.dropLast_concat_getLast]
    subst hsplit'
    obtain ⟨evs, x, hexec, hprov, harr, hnot⟩ := not_served_behind hF (Bool.not_eq_false _ ▸ hbad)
    exact hnot (h evs x hexec hprov harr)
  · exact fun hgood evs x hexec hprov harr => served_of_good hexec hprov harr hgood

/-- A good frame behind a bad one. -/
theorem served_iff_badGood :
    (∀ evs x, Machine.exec (rxStep false 0) .init evs = some x → Provided evs →
      arrivals evs <+: [⟨0x00058300#32, [7]⟩, ⟨0x00050300#32, [8]⟩] → Served false evs x) ↔
        ∀ f ∈ [Frame.mk 0x00058300#32 [7], ⟨0x00050300#32, [8]⟩].dropLast, f.bad = false := by
  refine served_iff fun f hf => ?_
  rcases List.mem_pair.mp hf with rfl | rfl
  · exact ⟨by decide, by decide, by decide⟩
  · exact ⟨by decide, by decide, by decide⟩

end

/-! ### Progress -/

section
variable {tfcd : Bool} {least : Nat} {x x' : Rx} {y : FrameQueue}

/-- The frames that will be left when the main loop polls next. -/
def FrameQueue.left (y : FrameQueue) : Nat :=
  match y.pc with
  | .idle => y.waiting.length
  | _ => y.waiting.length - 1

/-- The main loop does not take the good frames among `fs` for no frame. -/
def Seen (tfcd : Bool) (least : Nat) (fs : List Frame) : Prop := ∀ f ∈ fs, f.bad = false → least < f.size tfcd

/-- A poll leaves fewer frames, if there were any. -/
theorem left_sizeGet (hy : Seen tfcd least y.waiting) (hpc : y.pc = .idle) :
    (queueStep tfcd least y .sizeGet).left ≤ y.left - 1 := by
  have hleft : y.left = y.waiting.length := by
    rw [FrameQueue.left, hpc]
  cases hw : y.waiting with
  | nil =>
    rw [queueStep, hpc, hw]
    dsimp only
    rw [hleft, hw]
    exact Nat.le_refl 0
  | cons f fs =>
    rw [queueStep, hpc, hw]
    dsimp only
    rw [hleft, hw, List.length_cons, Nat.add_sub_cancel]
    by_cases hbad : f.bad = true
    · rw [if_pos hbad, FrameQueue.left]
      split
      · exact Nat.le_refl _
      · exact Nat.sub_le _ _
    · rw [if_neg hbad, if_pos (hy f (hw ▸ List.mem_cons_self) (Bool.eq_false_iff.mpr hbad)), FrameQueue.left]
      exact Nat.le_refl _

theorem left_queueStep {e : QueueEvent} (he : e.arrival = []) (hpoll : e ≠ .sizeGet) :
    (queueStep tfcd least y e).left ≤ y.left := by
  cases e with
  | arrive f => cases he
  | sizeGet => exact absurd rfl hpoll
  | length =>
    rw [queueStep]
    split
    · next hpc =>
      rw [FrameQueue.left, FrameQueue.left, hpc]
    · exact Nat.le_refl _
  | alloc ok =>
    rw [queueStep]
    split
    · next c hpc =>
      rw [FrameQueue.left, FrameQueue.left, hpc]
    · exact Nat.le_refl _
  | receive =>
    rw [queueStep]
    split
    · next c ok f fs hpc hw =>
      rw [FrameQueue.left, FrameQueue.left, hpc, hw]
      exact Nat.le_refl _
    · next c ok hpc hw =>
      rw [FrameQueue.left, FrameQueue.left, hpc, hw]
      exact Nat.zero_le _
    · exact Nat.le_refl _

/-- The main loop adds nothing to the queue. -/
theorem waiting_subset {e : QueueEvent} (he : e.arrival = []) : (queueStep tfcd least y e).waiting ⊆ y.waiting := by
  cases e with
  | arrive f => cases he
  | sizeGet =>
    rw [queueStep]
    split
    · next f fs hpc hw =>
      by_cases hbad : f.bad = true
      · rw [if_pos hbad, hw]
        exact List.subset_cons_self f fs
      · rw [if_neg hbad]
        exact List.Subset.refl _
    · exact List.Subset.refl _
  | length =>
    rw [queueStep]
    split <;> exact List.Subset.refl _
  | alloc ok =>
    rw [queueStep]
    split <;> exact List.Subset.refl _
  | receive =>
    rw [queueStep]
    split
    · next c ok f fs hpc hw =>
      rw [hw]
      exact List.subset_cons_self f fs
    · exact List.Subset.refl _
    · exact List.Subset.refl _

theorem left_step (h : Refines tfcd x y) (hseen : Seen tfcd least y.waiting) {e : RxEvent} (hcpu : ∀ s, e ≠ .close s)
    (hstep : rxStep tfcd least x e = some x') :
    ∃ y', Refines tfcd x' y' ∧ Seen tfcd least y'.waiting ∧ y'.left ≤ y.left - [e].count .sizeGet := by
  have hseen' : ∀ e : QueueEvent, e.arrival = [] → Seen tfcd least (queueStep tfcd least y e).waiting :=
    fun e he f hf => hseen f (waiting_subset he hf)
  have href := refines_step h hstep
  cases e with
  | sizeGet =>
    have hidle : y.pc = .idle := by
      have haligned := h.aligned
      rw [(rxStep_sizeGet hstep).1] at haligned
      exact haligned.idle_iff
    exact ⟨_, href, hseen' .sizeGet rfl, left_sizeGet hseen hidle⟩
  | length => exact ⟨_, href, hseen' .length rfl, @left_queueStep tfcd least y .length rfl nofun⟩
  | alloc ok => exact ⟨_, href, hseen' (.alloc ok) rfl, @left_queueStep tfcd least y (.alloc ok) rfl nofun⟩
  | copy => exact ⟨y, href, hseen, Nat.le_refl _⟩
  | receive => exact ⟨_, href, hseen' .receive rfl, @left_queueStep tfcd least y .receive rfl nofun⟩
  | store b => exact ⟨y, href, hseen, Nat.le_refl _⟩
  | close status => exact absurd rfl (hcpu status)

/-- When the main loop has polled as often as there are descriptors and no frame has arrived, the ring is empty. -/
theorem rxFree_of_polls {evs evs' : List RxEvent} (h : Machine.exec (rxStep tfcd least) .init evs = some x)
    (hseen : Seen tfcd least (arrivals evs)) (h' : Machine.exec (rxStep tfcd least) x evs' = some x')
    (hcpu : ∀ s, .close s ∉ evs') (hpolls : enetBufNum ≤ evs'.count .sizeGet) (hidle : x'.pc = .idle) :
    ∀ i < enetBufNum, RxFree x'.ring.rxdescTab i := by
  obtain ⟨y, hy⟩ := exists_rxHistory h
  have hwaiting : Seen tfcd least y.waiting := fun f hf => hseen f (by
    rw [arrivals, hy.arrived]
    exact List.mem_append_right _ hf)
  have hstart : y.left ≤ enetBufNum := by
    rw [FrameQueue.left]
    split
    · exact hy.refines.holds.le
    · exact Nat.le_trans (Nat.sub_le _ _) hy.refines.holds.le
  obtain ⟨y', href, -, hleft⟩ := @Machine.exec_history _ _ (rxStep tfcd least)
    (fun es s => (∀ st, .close st ∉ es) →
      ∃ y, Refines tfcd s y ∧ Seen tfcd least y.waiting ∧ y.left ≤ enetBufNum - es.count .sizeGet) x
    (fun _ => ⟨y, hy.refines, hwaiting, hstart⟩) (fun es s e t hs ht hcpu => by
      obtain ⟨z, hz, hzseen, hzleft⟩ := hs fun st hst => hcpu st (List.mem_append_left _ hst)
      obtain ⟨z', hz', hzseen', hzleft'⟩ := left_step hz hzseen
        (fun st hst => hcpu st (List.mem_append_right _ (List.mem_singleton.mpr hst.symm))) ht
      refine ⟨z', hz', hzseen', ?_⟩
      rw [List.count_append]
      omega) evs' x' h' hcpu
  have haligned := href.aligned
  rw [hidle] at haligned
  rw [FrameQueue.left, haligned.idle_iff] at hleft
  have hempty : y'.waiting = [] := List.eq_nil_of_length_eq_zero (by dsimp only at hleft; omega)
  have hholds := href.holds
  rw [hempty] at hholds
  exact fun i hi => hholds.all_free hi

/-- As long as no frame arrives, the main loop has emptied the ring when it has polled as often as there are
    descriptors. -/
theorem drained {evs evs' : List RxEvent} (h : Machine.exec (rxStep tfcd least) .init evs = some x)
    (hseen : Seen tfcd least (arrivals evs)) (h' : Machine.exec (rxStep tfcd least) x evs' = some x')
    (hcpu : ∀ s, .close s ∉ evs') (hpolls : enetBufNum ≤ evs'.count .sizeGet) (hidle : x'.pc = .idle) :
    ∀ i < enetBufNum, RxFree x'.ring.rxdescTab i :=
  rxFree_of_polls h hseen h' hcpu hpolls hidle

theorem drained_bad :
    ∃ x x', Machine.exec (rxStep false 1) .init [.store 7, .close 0x00058300#32] = some x ∧
      Machine.exec (rxStep false 1) x (List.replicate 5 .sizeGet) = some x' ∧
        ∀ i < enetBufNum, RxFree x'.ring.rxdescTab i := by
  refine ⟨_, _, rfl, rfl, @drained false 1 _ _ [.store 7, .close 0x00058300#32] (List.replicate 5 .sizeGet) rfl
    (fun f hf hgood => ?_) rfl (fun s hs => ?_) (by decide) rfl⟩
  · rw [List.mem_singleton.mp hf] at hgood
    exact absurd hgood (by decide)
  · cases List.eq_of_mem_replicate hs

/-! ### The test of the interrupt handler -/

theorem served_of_least {evs : List RxEvent} (hleast : 0 < least)
    (h : Machine.exec (rxStep tfcd least) .init evs = some x) (hprov : Provided evs) : Served tfcd evs x := by
  obtain ⟨y, hy⟩ := exists_rxHistory h
  refine hy.served hprov fun z hz => ?_
  obtain ⟨as, bs, hsplit⟩ := List.append_of_mem hz
  exact hy.inv.fair as z bs hsplit (.inl hleast)

theorem Provided.append {evs evs' : List RxEvent} (h : Provided evs) (h' : Provided evs') : Provided (evs ++ evs') :=
  fun ok hok => (List.mem_append.mp hok).elim (h ok) (h' ok)

/-- Without a `close`, no frame arrives. -/
theorem arrivals_append {evs evs' : List RxEvent} (hcpu : ∀ s, .close s ∉ evs') :
    arrivals (evs ++ evs') = arrivals evs := by
  rw [arrivals, Machine.run_append, arrivals]
  refine @Machine.run_frame _ _ arrive _ Prod.snd (fun e => ∀ s, e ≠ .close s) (fun z e he => ?_) evs'
    (fun e he s hs => hcpu s (hs ▸ he)) _
  cases e with
  | close status => exact absurd rfl (he status)
  | _ => rfl

/-- A ring whose descriptors are all the DMA's holds no frame. -/
theorem waiting_eq_nil {waiting : List Frame} (hholds : Ring.Holds enetBufNum (RxFull x.ring.rxdescTab x.ring.rxBuff)
    (RxFree x.ring.rxdescTab) x.ring.dmaCurrentRxdesc x.crdaddr waiting)
    (hfree : ∀ i < enetBufNum, RxFree x.ring.rxdescTab i) : waiting = [] := by
  cases waiting with
  | nil => rfl
  | cons f fs =>
    have howned := hholds.front.owned
    rw [← hholds.front.status, hfree _ hholds.lt] at howned
    exact absurd howned (by decide)

/-- With the test of `ENET_IRQHandler`, every sequence of frames is served properly, and completely: when no more
    frames arrive and the ring has been polled as often as there are descriptors, all the good ones have been handed
    over. -/
theorem served_of_handler {evs : List RxEvent} (hleast : 0 < least)
    (h : Machine.exec (rxStep tfcd least) .init evs = some x) (hprov : Provided evs) :
    Served tfcd evs x ∧
      ∀ evs' x', Machine.exec (rxStep tfcd least) x evs' = some x' → Provided evs' → Seen tfcd least (arrivals evs) →
        (∀ s, .close s ∉ evs') → enetBufNum ≤ evs'.count .sizeGet → x'.pc = .idle →
        List.Forall₂ (fun f p => Carries (f.length tfcd) f p)
          ((arrivals evs).filter fun f => !f.bad && decide (0 < f.length tfcd))
          (x'.inputs.filter fun p => 0 < chainLen p) := by
  refine ⟨served_of_least hleast h hprov, fun evs' x' h' hprov' hseen hcpu hpolls hidle => ?_⟩
  have hexec : Machine.exec (rxStep tfcd least) .init (evs ++ evs') = some x' := by
    rw [Machine.exec_append, h]
    exact h'
  obtain ⟨done, waiting, hsplit, hholds, hinputs⟩ := served_of_least hleast hexec (hprov.append hprov')
  have hnil : waiting = [] := waiting_eq_nil hholds (rxFree_of_polls h hseen h' hcpu hpolls hidle)
  rw [arrivals_append hcpu, hnil, List.append_nil] at hsplit
  rwa [hsplit]

/-- A chain of one pbuf is filled and handed over. -/
theorem exec_copy_one {src len : Nat} (hpc : x.pc = .copy [] src [len]) :
    Machine.exec (rxStep tfcd least) x [.copy, .copy, .receive] = some { x with
      ring := enetFrameReceive x.ring
      pc := .idle
      inputs := x.inputs ++ [[⟨ofBytes (read x.ring.rxBuff src len), len⟩]] } := by
  simp [Machine.exec, rxStep, hpc]

/-- As long as nothing waits, polling changes nothing. -/
theorem exec_sizeGet_empty (hpc : x.pc = .idle) (hdav : x.ring.current.status.getLsbD rdes0Dav = true) (n : Nat) :
    Machine.exec (rxStep tfcd least) x (List.replicate n .sizeGet) = some x := by
  have hstep : rxStep tfcd least x .sizeGet = some x := by
    have hsize : enetRxframeSizeGet tfcd x.ring = (0, x.ring) := by
      rw [enetRxframeSizeGet, hdav]
      rfl
    rw [rxStep, hpc, hsize]
    cases x
    cases hpc
    rfl
  induction n with
  | zero => rfl
  | succ n ih => rw [List.replicate_succ, Machine.exec_cons, hstep, Option.bind_some, ih]

/-- The last frame of the ring, in one pbuf, and polls after it. -/
theorem exec_last {src len : Nat} (hpc : x.pc = .copy [] src [len])
    (hdav : (enetFrameReceive x.ring).current.status.getLsbD rdes0Dav = true) (n : Nat) :
    ∃ x', Machine.exec (rxStep tfcd least) x ([.copy, .copy, .receive] ++ List.replicate n .sizeGet) = some x' ∧
      x'.pc = .idle := by
  rw [Machine.exec_append, exec_copy_one hpc, Option.bind_some]
  refine ⟨_, exec_sizeGet_empty ?_ ?_ n, ?_⟩
  · rfl
  · exact hdav
  · rfl

/-- Behind a bad frame, a good one of two bytes is handed over. -/
def handlerRun : List RxEvent := [.store 7, .close 0x00058300#32, .store 8, .store 9, .close 0x00060300#32]

def handlerPolls : List RxEvent :=
  [.sizeGet, .sizeGet, .length, .alloc true] ++ ([.copy, .copy, .receive] ++ List.replicate 3 .sizeGet)

theorem exec_handlerPolls :
    ∃ x x', Machine.exec (rxStep false 1) .init handlerRun = some x ∧
      Machine.exec (rxStep false 1) x handlerPolls = some x' ∧ x'.pc = .idle := by
  obtain ⟨x₁, x₂, h₁, h₂, hpc, hdav⟩ : ∃ x₁ x₂, Machine.exec (rxStep false 1) .init handlerRun = some x₁ ∧
      Machine.exec (rxStep false 1) x₁ [.sizeGet, .sizeGet, .length, .alloc true] = some x₂ ∧
      x₂.pc = .copy [] 1524 (poolLens 2) ∧
      (enetFrameReceive x₂.ring).current.status.getLsbD rdes0Dav = true :=
    ⟨_, _, rfl, rfl, rfl, rfl⟩
  have hlens : poolLens 2 = [2] := by simp [poolLens, poolRest, pbufPoolBufsize]
  rw [hlens] at hpc
  obtain ⟨x', h', hidle⟩ := @exec_last false 1 x₂ 1524 2 hpc hdav 3
  refine ⟨x₁, x', h₁, ?_, hidle⟩
  rw [handlerPolls, Machine.exec_append, h₂]
  exact h'

theorem served_of_handler_polls :
    ∃ x x', Machine.exec (rxStep false 1) .init handlerRun = some x ∧
      Machine.exec (rxStep false 1) x handlerPolls = some x' ∧ Served false handlerRun x ∧
        List.Forall₂ (fun f p => Carries (f.length false) f p)
          ((arrivals handlerRun).filter fun f => !f.bad && decide (0 < f.length false))
          (x'.inputs.filter fun p => 0 < chainLen p) := by
  obtain ⟨x, x', h, h', hidle⟩ := exec_handlerPolls
  have hserved := served_of_handler Nat.one_pos h fun ok hok => by simp [handlerRun] at hok
  refine ⟨x, x', h, h', hserved.1, hserved.2 handlerPolls x' h' (fun ok hok => ?_) (fun f hf hgood => ?_)
    (fun s hs => ?_) (by decide) hidle⟩
  · simpa [handlerPolls] using hok
  · rcases List.mem_pair.mp hf with rfl | rfl
    · exact absurd hgood (by decide)
    · decide
  · simp [handlerPolls] at hs

end

end YlsFirmware
