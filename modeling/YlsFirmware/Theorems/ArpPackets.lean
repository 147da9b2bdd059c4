import YlsFirmware.Theorems.ArpRuns
import Mathlib.Algebra.BigOperators.Fin
import Mathlib.Algebra.Order.BigOperators.Group.Finset
import Mathlib.Algebra.Order.Group.Multiset

/-! The packets that are given to the ARP module: each is sent or freed once, and waits for `ARP_MAXPENDING` ticks at
most. -/

namespace YlsFirmware
open Packed Machine

variable {α : Type}

/-- A packet that is sent at once -/
def EtharpOut.output? : EtharpOut α → Option α
  | .output _ q _ => some q
  | .queue _ | .dequeue _ _ _ | .free _ | .request _ _ _ | .reply _ _ _ => none

/-- A packet that waits from now on -/
def EtharpOut.queue? : EtharpOut α → Option α
  | .queue p => some p
  | .output _ _ _ | .dequeue _ _ _ | .free _ | .request _ _ _ | .reply _ _ _ => none

/-- A packet that is sent after it has waited -/
def EtharpOut.dequeue? : EtharpOut α → Option α
  | .dequeue _ p _ => some p
  | .output _ _ _ | .queue _ | .free _ | .request _ _ _ | .reply _ _ _ => none

/-- A packet that is freed, after it has waited -/
def EtharpOut.free? : EtharpOut α → Option α
  | .free p => some p
  | .output _ _ _ | .queue _ | .dequeue _ _ _ | .request _ _ _ | .reply _ _ _ => none

open EtharpOut (output? queue? dequeue? free?)

/-- The packets of one kind of output -/
def packets (kind : EtharpOut α → Option α) (outs : List (EtharpOut α)) : Multiset α := ↑(outs.filterMap kind)

def EtharpEntry.waiting (e : EtharpEntry α) : Multiset α := ↑e.q.toList

/-- The packets that wait -/
def waiting (t : ArpTable α) : Multiset α := ∑ i, (t i).waiting

/-- The packet of an entry that was made less than `k` ticks ago -/
def EtharpEntry.young (k : Nat) (e : EtharpEntry α) : Multiset α := if e.ctime < k then e.waiting else 0

def young (k : Nat) (t : ArpTable α) : Multiset α := ∑ i, (t i).young k

theorem packets_append (kind : EtharpOut α → Option α) (as bs : List (EtharpOut α)) :
    packets kind (as ++ bs) = packets kind as + packets kind bs := by
  rw [packets, List.filterMap_append, ← Multiset.coe_add]
  rfl

theorem packets_flatMap (kind : EtharpOut α → Option α) {ι : Type} (f : ι → List (EtharpOut α)) (is : List ι) :
    packets kind (is.flatMap f) = (is.map fun i => packets kind (f i)).sum := by
  induction is with
  | nil => rfl
  | cons i is ih => rw [List.flatMap_cons, packets_append, ih, List.map_cons, List.sum_cons]

theorem packets_eq_zero {kind : EtharpOut α → Option α} {outs : List (EtharpOut α)}
    (h : ∀ out ∈ outs, kind out = none) : packets kind outs = 0 := by
  rw [packets, List.filterMap_eq_nil_iff.mpr h]
  rfl

theorem packets_frees (e : EtharpEntry α) :
    packets queue? e.frees = 0 ∧ packets dequeue? e.frees = 0 ∧ packets free? e.frees = e.waiting := by
  rw [packets, packets, packets, EtharpEntry.frees, EtharpEntry.waiting]
  cases e.q <;> exact ⟨rfl, rfl, rfl⟩

theorem sum_update (w : EtharpEntry α → Multiset α) (t : ArpTable α) (i : Fin arpTableSize) (e : EtharpEntry α) :
    ∑ j, w (Function.update t i e j) + w (t i) = ∑ j, w (t j) + w e := by
  have hrest : ∑ j ∈ Finset.univ.erase i, w (Function.update t i e j) = ∑ j ∈ Finset.univ.erase i, w (t j) :=
    Finset.sum_congr rfl fun j hj => by rw [Function.update_of_ne (Finset.ne_of_mem_erase hj)]
  rw [← Finset.add_sum_erase _ _ (Finset.mem_univ i), ← Finset.add_sum_erase _ (fun j => w (t j)) (Finset.mem_univ i),
    hrest, Function.update_self]
  ac_rfl

/-! ### What a step does to the packets -/

/-- The packets that wait are those that have waited and the new ones, but for those that have left. -/
structure Balance (steady : Prop) (t t' : ArpTable α) (outs : List (EtharpOut α)) : Prop where
  waiting : waiting t + packets queue? outs = packets dequeue? outs + packets free? outs + waiting t'
  young : steady → ∀ k, young k t' ≤ young k t + packets queue? outs

section
variable {steady : Prop} {t t₁ t' : ArpTable α} {outs outs₁ : List (EtharpOut α)} {i : Fin arpTableSize}

/-- The outputs that are not about packets that wait -/
def EtharpOut.Idle (out : EtharpOut α) : Prop := out.queue? = none ∧ out.dequeue? = none ∧ out.free? = none

theorem packets_idle (h : ∀ out ∈ outs, out.Idle) :
    packets queue? outs = 0 ∧ packets dequeue? outs = 0 ∧ packets free? outs = 0 :=
  ⟨packets_eq_zero fun out hout => (h out hout).1, packets_eq_zero fun out hout => (h out hout).2.1,
    packets_eq_zero fun out hout => (h out hout).2.2⟩

theorem Balance.idle (h : ∀ out ∈ outs, out.Idle) : Balance steady t t outs := by
  obtain ⟨hqueue, hdequeue, hfree⟩ := packets_idle h
  refine ⟨?_, fun _ k => ?_⟩
  · rw [hqueue, hdequeue, hfree, add_zero, add_zero, zero_add]
  · rw [hqueue, add_zero]

theorem Balance.trans (h : Balance steady t t₁ outs) (h' : Balance steady t₁ t' outs₁) :
    Balance steady t t' (outs ++ outs₁) := by
  refine ⟨?_, fun hs k => ?_⟩
  · rw [packets_append, packets_append, packets_append, ← add_assoc, h.waiting, add_assoc, h'.waiting]
    ac_rfl
  · rw [packets_append, ← add_assoc]
    exact (h'.young hs k).trans (add_le_add_left (h.young hs k) _)

/-- One entry is changed, and does not get younger with a packet that has waited. -/
theorem Balance.update {e : EtharpEntry α}
    (hq : (t i).waiting + packets queue? outs = packets dequeue? outs + packets free? outs + e.waiting)
    (hage : steady → e.ctime < (t i).ctime → e.waiting ≤ packets queue? outs) :
    Balance steady t (Function.update t i e) outs := by
  refine ⟨?_, fun hs k => ?_⟩
  · have hsum := sum_update EtharpEntry.waiting t i e
    refine add_right_cancel (b := (t i).waiting) ?_
    calc YlsFirmware.waiting t + packets queue? outs + (t i).waiting
      _ = YlsFirmware.waiting t + ((t i).waiting + packets queue? outs) := by ac_rfl
      _ = packets dequeue? outs + packets free? outs + (YlsFirmware.waiting t + e.waiting) := by
        rw [hq]
        ac_rfl
      _ = packets dequeue? outs + packets free? outs + YlsFirmware.waiting (Function.update t i e) +
          (t i).waiting := by
        rw [YlsFirmware.waiting, ← hsum, YlsFirmware.waiting, ← add_assoc]
  · have hsum := sum_update (EtharpEntry.young k) t i e
    have hyoung : e.young k ≤ (t i).young k + packets queue? outs := by
      rw [EtharpEntry.young, EtharpEntry.young]
      by_cases hk : e.ctime < k
      · rw [if_pos hk]
        by_cases hyounger : e.ctime < (t i).ctime
        · exact (hage hs hyounger).trans (Multiset.le_add_left _ _)
        · rw [if_pos (by omega), hq]
          exact Multiset.le_add_left _ _
      · rw [if_neg hk]
        exact Multiset.zero_le _
    refine le_of_add_le_add_right (a := (t i).young k) ?_
    calc YlsFirmware.young k (Function.update t i e) + (t i).young k
      _ = YlsFirmware.young k t + e.young k := hsum
      _ ≤ YlsFirmware.young k t + ((t i).young k + packets queue? outs) := add_le_add_right hyoung _
      _ = YlsFirmware.young k t + packets queue? outs + (t i).young k := by ac_rfl

/-- The outputs of the search are packets that it frees. -/
theorem Balance.find (hempty : ∀ i, (t i).state = .empty → (t i).q = none) (ipaddr : BitVec 32) (flags : EtharpFlags)
    (netif : Nat) :
    Balance steady t (etharpFindEntry t ipaddr flags netif).1 (etharpFindEntry t ipaddr flags netif).2.1 := by
  have hnone : ∀ out ∈ ([] : List (EtharpOut α)), out.Idle := fun out hout => absurd hout List.not_mem_nil
  rcases etharpFindEntry_cases t ipaddr flags netif with
    ⟨i, hfind, -⟩ | ⟨-, ⟨-, hfind⟩ | ⟨-, i, ⟨hstate, hfind⟩ | ⟨-, -, hfind⟩⟩⟩ <;> rw [hfind]
  · exact .idle hnone
  · exact .idle hnone
  · have hq : ((t i).created ipaddr netif).waiting = 0 := by
      rw [EtharpEntry.waiting, EtharpEntry.created, hempty i hstate]
      rfl
    refine .update ?_ fun _ _ => hq ▸ Multiset.zero_le _
    rw [hq, EtharpEntry.waiting, hempty i hstate]
    rfl
  · have hq : ((t i).freed.created ipaddr netif).waiting = 0 := rfl
    obtain ⟨hqueue, hdequeue, hfree⟩ := packets_frees (t i)
    refine .update ?_ fun _ _ => hq ▸ Multiset.zero_le _
    rw [hq, hqueue, hdequeue, hfree, zero_add]

theorem Balance.updateArpEntry (hempty : ∀ i, (t i).state = .empty → (t i).q = none) (netif : Netif)
    (ipaddr : BitVec 32) (ethaddr : EthAddr) (flags : EtharpFlags) :
    Balance steady t (etharpUpdateArpEntry t netif ipaddr ethaddr flags).1
      (etharpUpdateArpEntry t netif ipaddr ethaddr flags).2.1 := by
  rw [etharpUpdateArpEntry]
  split_ifs
  · exact .idle fun out hout => absurd hout List.not_mem_nil
  · have hfind := @Balance.find α steady t hempty ipaddr flags netif.num
    generalize etharpFindEntry t ipaddr flags netif.num = r at hfind
    obtain ⟨t₁, outs, found⟩ := r
    cases found with
    | none => exact hfind
    | some i =>
      refine hfind.trans (.update ?_ fun _ _ => Multiset.zero_le _)
      rw [EtharpEntry.waiting]
      cases (t₁ i).q <;> rfl

theorem Balance.input (hempty : ∀ i, (t i).state = .empty → (t i).q = none) (hdr : EtharpHdr) (netif : Netif) :
    Balance steady t (etharpInput t hdr netif).1 (etharpInput t hdr netif).2 := by
  rw [etharpInput]
  by_cases hvalid : (!hdr.valid) = true
  · rw [if_pos hvalid]
    exact .idle fun out hout => absurd hout List.not_mem_nil
  · rw [if_neg hvalid]
    dsimp only
    generalize (if (!ip4AddrIsany netif.ipAddr && hdr.dipaddr == netif.ipAddr) = true then
      EtharpFlags.tryHard else EtharpFlags.findOnly) = flags
    have hupdate := @Balance.updateArpEntry α steady t hempty netif hdr.sipaddr hdr.shwaddr flags
    generalize etharpUpdateArpEntry t netif hdr.sipaddr hdr.shwaddr flags = r at hupdate
    obtain ⟨t₁, outs, err⟩ := r
    dsimp only
    split_ifs
    · refine hupdate.trans (.idle fun out hout => ?_)
      rw [List.mem_singleton.mp hout]
      exact ⟨rfl, rfl, rfl⟩
    · exact hupdate

/-- A query leaves the packet of an entry, and makes it young only if there is no packet to send. -/
theorem EtharpEntry.waiting_queried (e : EtharpEntry α) (netif : Nat) (noPacket requestOk : Bool) :
    (e.queried netif noPacket requestOk).waiting = e.waiting ∧
      (noPacket = false → (e.queried netif noPacket requestOk).ctime = e.ctime) := by
  rw [EtharpEntry.queried]
  by_cases hempty : e.state = .empty
  · rw [if_pos hempty]
    exact ⟨rfl, fun _ => rfl⟩
  · rw [if_neg hempty]
    by_cases hreset : noPacket = true ∧ requestOk = true ∧ e.state = .pending
    · rw [if_pos hreset]
      exact ⟨rfl, fun hno => by cases hno.symm.trans hreset.1⟩
    · rw [if_neg hreset]
      exact ⟨rfl, fun _ => rfl⟩

theorem Balance.query {s : Etharp α} (hempty : ∀ i, (s.arpTable i).state = .empty → (s.arpTable i).q = none)
    (needsCopy : α → Bool) (netif : Netif) (ipaddr : BitVec 32) {q : Option α} (requestOk : Bool) (clone : Option α)
    (hq : steady → q.isNone = false) :
    Balance steady s.arpTable (etharpQuery needsCopy s netif ipaddr q requestOk clone).1.arpTable
      (etharpQuery needsCopy s netif ipaddr q requestOk clone).2.1 := by
  rw [etharpQuery]
  by_cases hip : (ip4AddrIsbroadcast ipaddr netif || ip4AddrIsmulticast ipaddr || ip4AddrIsany ipaddr) = true
  · rw [if_pos hip]
    exact .idle fun out hout => absurd hout List.not_mem_nil
  rw [if_neg hip]
  have hfind := @Balance.find α steady s.arpTable hempty ipaddr .tryHard netif.num
  generalize etharpFindEntry s.arpTable ipaddr .tryHard netif.num = r at hfind
  obtain ⟨t₁, outs, found⟩ := r
  cases found with
  | none => exact hfind
  | some i =>
    dsimp only at hfind ⊢
    have hasked : Balance steady s.arpTable t₁ (if (decide ((t₁ i).state = .empty) || q.isNone) && requestOk then
        outs ++ [EtharpOut.request netif.num ipaddr ethbroadcast] else outs) := by
      split_ifs
      · refine hfind.trans (.idle fun out hout => ?_)
        rw [List.mem_singleton.mp hout]
        exact ⟨rfl, rfl, rfl⟩
      · exact hfind
    generalize (if (decide ((t₁ i).state = .empty) || q.isNone) && requestOk then
      outs ++ [EtharpOut.request netif.num ipaddr ethbroadcast] else outs) = outs' at hasked ⊢
    obtain ⟨hwaiting, hage⟩ := (t₁ i).waiting_queried netif.num q.isNone requestOk
    generalize (t₁ i).queried netif.num q.isNone requestOk = e at hwaiting hage ⊢
    have hctime : steady → e.ctime = (t₁ i).ctime := fun hs => hage (hq hs)
    -- the entry with the packet that it has, and outputs that are not about it
    have hset : ∀ outs₁ : List (EtharpOut α), (∀ out ∈ outs₁, out.Idle) →
        Balance steady s.arpTable (Function.update t₁ i e) (outs' ++ outs₁) := fun outs₁ hidle => by
      obtain ⟨hqueue, hdequeue, hfree⟩ := packets_idle hidle
      refine hasked.trans (.update ?_ fun hs hlt => absurd hlt (hctime hs ▸ Nat.lt_irrefl _))
      rw [hqueue, hdequeue, hfree, add_zero, zero_add, zero_add, hwaiting]
    have hnil := hset [] fun out hout => absurd hout List.not_mem_nil
    rw [List.append_nil] at hnil
    cases q with
    | none => exact hnil
    | some q =>
      dsimp only
      by_cases hstable : e.state.isStable = true
      · rw [if_pos hstable]
        refine hset _ fun out hout => ?_
        rw [List.mem_singleton.mp hout]
        exact ⟨rfl, rfl, rfl⟩
      · rw [if_neg hstable]
        generalize (if needsCopy q then clone else some q) = taken
        cases taken with
        | none => exact hnil
        | some p =>
          obtain ⟨hqueue, hdequeue, hfree⟩ := packets_frees e
          have hnew : packets queue? [EtharpOut.queue p] = {p} ∧ packets dequeue? [EtharpOut.queue p] = 0 ∧
              packets free? [EtharpOut.queue p] = 0 := ⟨rfl, rfl, rfl⟩
          refine hasked.trans (.update ?_ fun hs hlt => absurd hlt (by rw [hctime hs]; exact Nat.lt_irrefl _))
          rw [packets_append, packets_append, packets_append, hqueue, hdequeue, hfree, hwaiting, hnew.1, hnew.2.1,
            hnew.2.2, zero_add, zero_add, zero_add, add_zero]
          rfl

theorem Balance.outputToArpIndex (netif : Netif) (q : α) (i : Fin arpTableSize) (requestOk : Bool) :
    Balance steady t (etharpOutputToArpIndex t netif q i requestOk).1
      (etharpOutputToArpIndex t netif q i requestOk).2 := by
  have hone : ∀ out ∈ [EtharpOut.output netif.num q (t i).ethaddr], out.Idle := fun out hout => by
    rw [List.mem_singleton.mp hout]
    exact ⟨rfl, rfl, rfl⟩
  rw [etharpOutputToArpIndex]
  dsimp only
  generalize (if arpAgeRerequestUsedBroadcast ≤ (t i).ctime then ethbroadcast else (t i).ethaddr) = dst
  split_ifs
  · have htwo : ∀ out ∈ [EtharpOut.request netif.num (t i).ipaddr dst, .output netif.num q (t i).ethaddr], out.Idle :=
      List.forall_mem_cons.mpr ⟨⟨rfl, rfl, rfl⟩, hone⟩
    obtain ⟨hqueue, hdequeue, hfree⟩ := packets_idle htwo
    refine .update ?_ fun _ hlt => absurd hlt (Nat.lt_irrefl _)
    dsimp only
    rw [hqueue, hdequeue, hfree, add_zero, zero_add, zero_add]
    rfl
  · exact .idle hone
  · exact .idle hone

theorem Balance.output {s : Etharp α} (hempty : ∀ i, (s.arpTable i).state = .empty → (s.arpTable i).q = none)
    (needsCopy : α → Bool) (netif : Netif) (q : α) (ipaddr : BitVec 32) (requestOk : Bool) (clone : Option α) :
    Balance steady s.arpTable (etharpOutput needsCopy s netif q ipaddr requestOk clone).1.arpTable
      (etharpOutput needsCopy s netif q ipaddr requestOk clone).2.1 := by
  have hone : ∀ dst, ∀ out ∈ [EtharpOut.output netif.num q dst], out.Idle := fun dst out hout => by
    rw [List.mem_singleton.mp hout]
    exact ⟨rfl, rfl, rfl⟩
  rw [etharpOutput]
  by_cases hbroadcast : ip4AddrIsbroadcast ipaddr netif = true
  · rw [if_pos hbroadcast]
    exact .idle (hone _)
  rw [if_neg hbroadcast]
  by_cases hmulticast : ip4AddrIsmulticast ipaddr = true
  · rw [if_pos hmulticast]
    exact .idle (hone _)
  rw [if_neg hmulticast]
  cases etharpDstAddr netif ipaddr with
  | none => exact .idle fun out hout => absurd hout List.not_mem_nil
  | some dstAddr =>
    dsimp only
    generalize (if (s.arpTable s.etharpCachedEntry).resolves netif.num dstAddr = true then some s.etharpCachedEntry
      else (List.finRange arpTableSize).find? fun i => (s.arpTable i).resolves netif.num dstAddr) = found
    cases found with
    | none => exact .query hempty needsCopy netif dstAddr requestOk clone fun _ => rfl
    | some i => exact .outputToArpIndex netif q i requestOk

/-- All entries are changed, and no packet is new. -/
theorem Balance.map {f : Fin arpTableSize → EtharpEntry α} {o : Fin arpTableSize → List (EtharpOut α)}
    (h : ∀ i, packets queue? (o i) = 0 ∧
      (t i).waiting = packets dequeue? (o i) + packets free? (o i) + (f i).waiting)
    (hage : ∀ i, (f i).q = none ∨ (t i).ctime ≤ (f i).ctime) :
    Balance steady t f ((List.finRange arpTableSize).flatMap o) := by
  refine ⟨?_, fun _ k => ?_⟩
  · rw [packets_flatMap, packets_flatMap, packets_flatMap, ← Fin.sum_univ_def, ← Fin.sum_univ_def, ← Fin.sum_univ_def,
      Finset.sum_congr rfl fun i _ => (h i).1, Finset.sum_const_zero, add_zero, YlsFirmware.waiting,
      YlsFirmware.waiting, ← Finset.sum_add_distrib, ← Finset.sum_add_distrib]
    exact Finset.sum_congr rfl fun i _ => (h i).2
  · refine (Finset.sum_le_sum fun i _ => ?_).trans (Multiset.le_add_right _ _)
    rcases hage i with hnone | hle
    · rw [EtharpEntry.young, EtharpEntry.waiting, hnone]
      split_ifs <;> exact Multiset.zero_le _
    · rw [EtharpEntry.young, EtharpEntry.young]
      by_cases hk : (f i).ctime < k
      · rw [if_pos hk, if_pos (by omega), (h i).2]
        exact Multiset.le_add_left _ _
      · rw [if_neg hk]
        exact Multiset.zero_le _

/-- The packet of an entry and its age, over one tick. -/
theorem EntryOk.tick {e : EtharpEntry α} (h : EntryOk e) :
    packets queue? (etharpTmrEntry e).2 = 0 ∧
      e.waiting = packets dequeue? (etharpTmrEntry e).2 + packets free? (etharpTmrEntry e).2 +
        (etharpTmrEntry e).1.waiting ∧
      ((etharpTmrEntry e).1.q = none ∨ (etharpTmrEntry e).1.ctime = e.ctime + 1) := by
  rcases etharpTmrEntry_cases h with ⟨hempty, heq⟩ | ⟨-, -, heq⟩ | ⟨-, -, heq⟩ | ⟨-, -, s, -, heq⟩ <;> rw [heq]
  · exact ⟨rfl, (zero_add _).symm, .inl (h.empty hempty)⟩
  · obtain ⟨hqueue, hdequeue, hfree⟩ := packets_frees e
    refine ⟨hqueue, ?_, .inl rfl⟩
    rw [hdequeue, hfree, zero_add]
    exact (add_zero _).symm
  · exact ⟨rfl, (zero_add _).symm, .inr rfl⟩
  · exact ⟨rfl, (zero_add _).symm, .inr rfl⟩

theorem Balance.tmr (hok : ∀ i, EntryOk (t i)) : Balance steady t (etharpTmr t).1 (etharpTmr t).2 :=
  .map (fun i => ⟨(hok i).tick.1, (hok i).tick.2.1⟩) fun i => (hok i).tick.2.2.imp_right fun h => by omega

/-- Over a tick, all packets get older. -/
theorem young_tmr (hok : ∀ i, EntryOk (t i)) (k : Nat) : young (k + 1) (etharpTmr t).1 ≤ young k t := by
  refine Finset.sum_le_sum fun i _ => ?_
  obtain ⟨-, hwaiting, hage⟩ := (hok i).tick
  change (etharpTmrEntry (t i)).1.young (k + 1) ≤ _
  rw [EtharpEntry.young, EtharpEntry.young]
  by_cases hk : (etharpTmrEntry (t i)).1.ctime < k + 1
  · rw [if_pos hk]
    rcases hage with hnone | hctime
    · rw [EtharpEntry.waiting, hnone]
      exact Multiset.zero_le _
    · rw [if_pos (by omega), hwaiting]
      exact Multiset.le_add_left _ _
  · rw [if_neg hk]
    exact Multiset.zero_le _

theorem Balance.cleanupNetif (netif : Netif) :
    Balance steady t (etharpCleanupNetif t netif).1 (etharpCleanupNetif t netif).2 := by
  rw [etharpCleanupNetif]
  dsimp only
  refine .map (fun i => ?_) fun i => ?_
  · obtain ⟨hqueue, hdequeue, hfree⟩ := packets_frees (t i)
    split_ifs
    · refine ⟨hqueue, ?_⟩
      rw [hdequeue, hfree, zero_add]
      exact (add_zero _).symm
    · exact ⟨rfl, (zero_add _).symm⟩
  · split_ifs
    · exact .inl rfl
    · exact .inr (Nat.le_refl _)

/-- All calls of `etharp_query` have a packet. -/
def EtharpEvent.HasPacket : EtharpEvent α → Prop
  | .query _ _ q _ _ => q.isNone = false
  | .tmr | .input _ _ | .output _ _ _ _ _ | .cleanupNetif _ => True

theorem Balance.step {s : Etharp α} (hok : ∀ i, EntryOk (s.arpTable i)) (needsCopy : α → Bool) (e : EtharpEvent α) :
    Balance e.HasPacket s.arpTable (etharpStep needsCopy s e).1.arpTable (etharpStep needsCopy s e).2 := by
  have hempty : ∀ i, (s.arpTable i).state = .empty → (s.arpTable i).q = none := fun i => (hok i).empty
  cases e with
  | tmr => exact .tmr hok
  | input netif hdr => exact .input hempty hdr netif
  | output netif q ipaddr requestOk clone => exact .output hempty needsCopy netif q ipaddr requestOk clone
  | query netif ipaddr q requestOk clone => exact .query hempty needsCopy netif ipaddr requestOk clone id
  | cleanupNetif netif => exact .cleanupNetif netif

end

/-! ### What the callers are told -/

/-- The packet that a call has taken, by what it returns: the one that is sent, or the one or its copy that waits. -/
def EtharpResult.accepted (needsCopy : α → Bool) (q clone : Option α) : EtharpResult → Multiset α
  | .link => ↑q.toList
  | .err .ok => ↑(q.bind fun q => if needsCopy q then clone else some q).toList
  | .err _ => 0

def EtharpEvent.accepted (needsCopy : α → Bool) (s : Etharp α) : EtharpEvent α → Multiset α
  | .output netif q ipaddr requestOk clone =>
    (etharpOutput needsCopy s netif q ipaddr requestOk clone).2.2.accepted needsCopy (some q) clone
  | .query netif ipaddr q requestOk clone =>
    (etharpQuery needsCopy s netif ipaddr q requestOk clone).2.2.accepted needsCopy q clone
  | .tmr | .input _ _ | .cleanupNetif _ => 0

/-- Outputs that give away no packet of the caller -/
def EtharpOut.Kept (out : EtharpOut α) : Prop := out.output? = none ∧ out.queue? = none

theorem packets_kept {outs : List (EtharpOut α)} (h : ∀ out ∈ outs, out.Kept) :
    packets output? outs + packets queue? outs = 0 := by
  rw [packets_eq_zero fun out hout => (h out hout).1, packets_eq_zero fun out hout => (h out hout).2]
  rfl

theorem packets_kept_append {as bs : List (EtharpOut α)} (h : ∀ out ∈ as, out.Kept) :
    packets output? (as ++ bs) + packets queue? (as ++ bs) = packets output? bs + packets queue? bs := by
  rw [packets_append, packets_append, add_add_add_comm, packets_kept h, zero_add]

theorem kept_of_frees {e : EtharpEntry α} : ∀ out ∈ e.frees, out.Kept := fun out hout => by
  obtain ⟨p, rfl⟩ := mem_frees hout
  exact ⟨rfl, rfl⟩

theorem kept_of_input {t : ArpTable α} (hdr : EtharpHdr) (netif : Netif) :
    ∀ out ∈ (etharpInput t hdr netif).2, out.Kept := by
  rw [etharpInput]
  by_cases hvalid : (!hdr.valid) = true
  · rw [if_pos hvalid]
    exact fun out hout => absurd hout List.not_mem_nil
  · rw [if_neg hvalid]
    dsimp only
    generalize (if (!ip4AddrIsany netif.ipAddr && hdr.dipaddr == netif.ipAddr) = true then
      EtharpFlags.tryHard else EtharpFlags.findOnly) = flags
    have hupdate : ∀ out ∈ (etharpUpdateArpEntry t netif hdr.sipaddr hdr.shwaddr flags).2.1, out.Kept := by
      rw [etharpUpdateArpEntry]
      split_ifs
      · exact fun out hout => absurd hout List.not_mem_nil
      · have hfind : ∀ out ∈ (etharpFindEntry t hdr.sipaddr flags netif.num).2.1, out.Kept := fun out hout => by
          obtain ⟨p, rfl⟩ := etharpFindEntry_outs hout
          exact ⟨rfl, rfl⟩
        generalize etharpFindEntry t hdr.sipaddr flags netif.num = r at hfind
        obtain ⟨t₁, outs, found⟩ := r
        cases found with
        | none => exact hfind
        | some i =>
          intro out hout
          rcases List.mem_append.mp hout with hout | hout
          · exact hfind out hout
          · obtain ⟨p, -, rfl⟩ := List.mem_map.mp hout
            exact ⟨rfl, rfl⟩
    split_ifs
    · intro out hout
      rcases List.mem_append.mp hout with hout | hout
      · exact hupdate out hout
      · rw [List.mem_singleton.mp hout]
        exact ⟨rfl, rfl⟩
    · exact hupdate

theorem accepted_query (needsCopy : α → Bool) (s : Etharp α) (netif : Netif) (ipaddr : BitVec 32) (q : Option α)
    (requestOk : Bool) (clone : Option α) :
    (etharpQuery needsCopy s netif ipaddr q requestOk clone).2.2.accepted needsCopy q clone =
      packets output? (etharpQuery needsCopy s netif ipaddr q requestOk clone).2.1 +
        packets queue? (etharpQuery needsCopy s netif ipaddr q requestOk clone).2.1 := by
  rw [etharpQuery]
  by_cases hip : (ip4AddrIsbroadcast ipaddr netif || ip4AddrIsmulticast ipaddr || ip4AddrIsany ipaddr) = true
  · rw [if_pos hip]
    rfl
  rw [if_neg hip]
  have hfind : ∀ out ∈ (etharpFindEntry s.arpTable ipaddr .tryHard netif.num).2.1, out.Kept := fun out hout => by
    obtain ⟨p, rfl⟩ := etharpFindEntry_outs hout
    exact ⟨rfl, rfl⟩
  generalize etharpFindEntry s.arpTable ipaddr .tryHard netif.num = r at hfind
  obtain ⟨t₁, outs, found⟩ := r
  cases found with
  | none => exact (packets_kept hfind).symm
  | some i =>
    dsimp only at hfind ⊢
    have hasked : ∀ out ∈ (if (decide ((t₁ i).state = .empty) || q.isNone) && requestOk then
        outs ++ [EtharpOut.request netif.num ipaddr ethbroadcast] else outs), out.Kept := by
      split_ifs
      · intro out hout
        rcases List.mem_append.mp hout with hout | hout
        · exact hfind out hout
        · rw [List.mem_singleton.mp hout]
          exact ⟨rfl, rfl⟩
      · exact hfind
    generalize (if (decide ((t₁ i).state = .empty) || q.isNone) && requestOk then
      outs ++ [EtharpOut.request netif.num ipaddr ethbroadcast] else outs) = outs' at hasked ⊢
    generalize (t₁ i).queried netif.num q.isNone requestOk = e
    cases q with
    | none =>
      dsimp only
      rw [packets_kept hasked]
      cases requestOk <;> rfl
    | some q =>
      dsimp only
      by_cases hstable : e.state.isStable = true
      · rw [if_pos hstable, packets_kept_append hasked]
        rfl
      · rw [if_neg hstable]
        generalize htaken : (if needsCopy q then clone else some q) = taken
        cases taken with
        | none => exact (packets_kept hasked).symm
        | some p =>
          dsimp only
          rw [packets_kept_append hasked, packets_kept_append kept_of_frees, EtharpResult.accepted, Option.bind_some, htaken]
          rfl

/-- A packet that is given is sent once or waits once if its caller is told so, and neither if not. -/
theorem accepted_eq {s : Etharp α} (hok : ∀ i, EntryOk (s.arpTable i)) (needsCopy : α → Bool) (e : EtharpEvent α) :
    e.accepted needsCopy s =
      packets output? (etharpStep needsCopy s e).2 + packets queue? (etharpStep needsCopy s e).2 := by
  have hkept : ∀ outs : List (EtharpOut α), (∀ out ∈ outs, out.Kept) →
      0 = packets output? outs + packets queue? outs := fun outs h => (packets_kept h).symm
  cases e with
  | tmr =>
    refine hkept _ fun out hout => ?_
    obtain ⟨i, -, hi⟩ := List.mem_flatMap.mp hout
    rcases etharpTmrEntry_cases (hok i) with ⟨-, heq⟩ | ⟨-, -, heq⟩ | ⟨-, -, heq⟩ | ⟨-, -, s, -, heq⟩ <;> rw [heq] at hi
    · cases hi
    · exact kept_of_frees out hi
    · rw [List.mem_singleton.mp hi]
      exact ⟨rfl, rfl⟩
    · cases hi
  | input netif hdr => exact hkept _ (kept_of_input hdr netif)
  | cleanupNetif netif =>
    refine hkept _ fun out hout => ?_
    obtain ⟨i, -, hi⟩ := List.mem_flatMap.mp hout
    split_ifs at hi
    · exact kept_of_frees out hi
    · cases hi
  | query netif ipaddr q requestOk clone => exact accepted_query needsCopy s netif ipaddr q requestOk clone
  | output netif q ipaddr requestOk clone =>
    rw [EtharpEvent.accepted, etharpStep, etharpOutput]
    by_cases hbroadcast : ip4AddrIsbroadcast ipaddr netif = true
    · rw [if_pos hbroadcast]
      rfl
    rw [if_neg hbroadcast]
    by_cases hmulticast : ip4AddrIsmulticast ipaddr = true
    · rw [if_pos hmulticast]
      rfl
    rw [if_neg hmulticast]
    cases etharpDstAddr netif ipaddr with
    | none => rfl
    | some dstAddr =>
      dsimp only
      generalize (if (s.arpTable s.etharpCachedEntry).resolves netif.num dstAddr = true then some s.etharpCachedEntry
        else (List.finRange arpTableSize).find? fun i => (s.arpTable i).resolves netif.num dstAddr) = found
      cases found with
      | none => exact accepted_query needsCopy s netif dstAddr (some q) requestOk clone
      | some i =>
        dsimp only
        rw [etharpOutputToArpIndex]
        split_ifs <;> rfl

/-! ### Runs -/

/-- The table after some more events -/
def etharpFrom (needsCopy : α → Bool) (s : Etharp α) (evs : List (EtharpEvent α)) : Etharp α :=
  run (fun s e => (etharpStep needsCopy s e).1) s evs

/-- The outputs of a run -/
def etharpOuts (needsCopy : α → Bool) (s : Etharp α) (evs : List (EtharpEvent α)) : List (EtharpOut α) :=
  record (fun s e => (etharpStep needsCopy s e).1) (fun outs s e => outs ++ (etharpStep needsCopy s e).2) s [] evs

/-- The packets that the calls of a run have taken -/
def acceptedIn (needsCopy : α → Bool) (s : Etharp α) (evs : List (EtharpEvent α)) : Multiset α :=
  record (fun s e => (etharpStep needsCopy s e).1) (fun ps s e => ps + e.accepted needsCopy s) s 0 evs

section
variable {needsCopy : α → Bool} {s : Etharp α} {evs : List (EtharpEvent α)}

theorem etharpFrom_concat (evs : List (EtharpEvent α)) (e : EtharpEvent α) :
    etharpFrom needsCopy s (evs ++ [e]) = (etharpStep needsCopy (etharpFrom needsCopy s evs) e).1 :=
  run_concat _ s evs e

theorem etharpOuts_concat (evs : List (EtharpEvent α)) (e : EtharpEvent α) :
    etharpOuts needsCopy s (evs ++ [e]) =
      etharpOuts needsCopy s evs ++ (etharpStep needsCopy (etharpFrom needsCopy s evs) e).2 :=
  record_concat _ _ s [] evs e

theorem acceptedIn_concat (evs : List (EtharpEvent α)) (e : EtharpEvent α) :
    acceptedIn needsCopy s (evs ++ [e]) = acceptedIn needsCopy s evs + e.accepted needsCopy (etharpFrom needsCopy s evs) :=
  record_concat _ _ s 0 evs e

/-- The entries of a table that some events have led to -/
theorem entryOk_from (needsCopy : α → Bool) (evs evs' : List (EtharpEvent α)) (i : Fin arpTableSize) :
    EntryOk ((etharpFrom needsCopy (etharpRun needsCopy evs) evs').arpTable i) := by
  have hok := (arpOk_run needsCopy (evs ++ evs')).entry i
  rwa [etharpRun, run_append] at hok

theorem accepted_run (hok : ∀ evs i, EntryOk ((etharpFrom needsCopy s evs).arpTable i)) (evs : List (EtharpEvent α)) :
    acceptedIn needsCopy s evs =
      packets output? (etharpOuts needsCopy s evs) + packets queue? (etharpOuts needsCopy s evs) := by
  induction evs using List.reverseRecOn with
  | nil => rfl
  | append_singleton evs e ih =>
    rw [acceptedIn_concat, etharpOuts_concat, packets_append, packets_append, ih, accepted_eq (hok evs)]
    ac_rfl

theorem balance_run (hok : ∀ evs i, EntryOk ((etharpFrom needsCopy s evs).arpTable i)) (evs : List (EtharpEvent α)) :
    Balance False s.arpTable (etharpFrom needsCopy s evs).arpTable (etharpOuts needsCopy s evs) := by
  induction evs using List.reverseRecOn with
  | nil => exact .idle fun out hout => absurd hout List.not_mem_nil
  | append_singleton evs e ih =>
    rw [etharpFrom_concat, etharpOuts_concat]
    have hstep := Balance.step (hok evs) needsCopy e
    exact ih.trans ⟨hstep.waiting, fun hf => hf.elim⟩

/-- Every packet that a call takes is sent at once, sent later, freed, or waits: exactly one of them, once. -/
theorem packets_conserved (needsCopy : α → Bool) (evs evs' : List (EtharpEvent α)) :
    waiting (etharpRun needsCopy evs).arpTable + acceptedIn needsCopy (etharpRun needsCopy evs) evs' =
      packets output? (etharpOuts needsCopy (etharpRun needsCopy evs) evs') +
        packets dequeue? (etharpOuts needsCopy (etharpRun needsCopy evs) evs') +
        packets free? (etharpOuts needsCopy (etharpRun needsCopy evs) evs') +
        waiting (etharpRun needsCopy (evs ++ evs')).arpTable := by
  have hok := entryOk_from needsCopy evs
  have hbalance := (balance_run hok evs').waiting
  have hrun : etharpRun needsCopy (evs ++ evs') = etharpFrom needsCopy (etharpRun needsCopy evs) evs' :=
    run_append _ _ evs evs'
  rw [accepted_run hok, hrun, add_left_comm, hbalance]
  ac_rfl

theorem young_run (hok : ∀ evs i, EntryOk ((etharpFrom needsCopy s evs).arpTable i)) (evs : List (EtharpEvent α))
    (hpacket : ∀ e ∈ evs, e.HasPacket) :
    young (arpTicks evs) (etharpFrom needsCopy s evs).arpTable ≤ packets queue? (etharpOuts needsCopy s evs) := by
  induction evs using List.reverseRecOn with
  | nil =>
    refine (Finset.sum_eq_zero fun i _ => ?_).le
    exact if_neg (Nat.not_lt_zero _)
  | append_singleton evs e ih =>
    have hprev := ih fun e' he' => hpacket e' (List.mem_append_left _ he')
    have hstep := Balance.step (hok evs) needsCopy e
    have hthis := hstep.young (hpacket e (List.mem_append_right _ List.mem_cons_self))
    rw [etharpFrom_concat, etharpOuts_concat, packets_append]
    have hticks : arpTicks (evs ++ [e]) = arpTicks evs + arpTicks [e] := List.countP_append
    rw [hticks]
    cases e with
    | tmr =>
      refine (young_tmr (hok evs) _).trans (hprev.trans (Multiset.le_add_right _ _))
    | input netif hdr => exact (hthis _).trans (add_le_add_left hprev _)
    | output netif q ipaddr requestOk clone => exact (hthis _).trans (add_le_add_left hprev _)
    | query netif ipaddr q requestOk clone => exact (hthis _).trans (add_le_add_left hprev _)
    | cleanupNetif netif => exact (hthis _).trans (add_le_add_left hprev _)

theorem EntryOk.young {e : EtharpEntry α} (h : EntryOk e) {k : Nat} (hk : arpMaxpending ≤ k) : e.young k = e.waiting := by
  rw [EtharpEntry.young]
  cases hq : e.q with
  | none => rw [EtharpEntry.waiting, hq]; exact ite_self _
  | some p =>
    rw [if_pos (Nat.lt_of_lt_of_le (h.pending (h.pending_of_packet hq)) hk)]

/-- A packet that waits is sent or freed by the fifth tick from then. -/
theorem packets_leave (needsCopy : α → Bool) (evs evs' : List (EtharpEvent α)) (hpacket : ∀ e ∈ evs', e.HasPacket)
    (hticks : arpMaxpending ≤ arpTicks evs') :
    waiting (etharpRun needsCopy evs).arpTable ≤
      packets dequeue? (etharpOuts needsCopy (etharpRun needsCopy evs) evs') +
        packets free? (etharpOuts needsCopy (etharpRun needsCopy evs) evs') := by
  have hok := entryOk_from needsCopy evs
  have hyoung := young_run hok evs' hpacket
  have hall : young (arpTicks evs') (etharpFrom needsCopy (etharpRun needsCopy evs) evs').arpTable =
      waiting (etharpFrom needsCopy (etharpRun needsCopy evs) evs').arpTable :=
    Finset.sum_congr rfl fun i _ => (hok evs' i).young hticks
  rw [hall] at hyoung
  refine le_of_add_le_add_right
    (a := waiting (etharpFrom needsCopy (etharpRun needsCopy evs) evs').arpTable) ?_
  rw [← (balance_run hok evs').waiting]
  exact add_le_add_right hyoung _

theorem packets_leave_unanswered :
    7 ∈ packets dequeue? (etharpOuts (fun _ => false) (etharpRun (fun _ => false)
        [.output (lanNetif 11) 7 (lanNetif 10).ipAddr true none]) (List.replicate 5 .tmr)) +
      packets free? (etharpOuts (fun _ => false) (etharpRun (fun _ => false)
        [.output (lanNetif 11) 7 (lanNetif 10).ipAddr true none]) (List.replicate 5 .tmr)) :=
  Multiset.mem_of_le (packets_leave (fun _ => false) [.output (lanNetif 11) 7 (lanNetif 10).ipAddr true none]
    (List.replicate 5 .tmr) (fun e he => List.eq_of_mem_replicate he ▸ trivial) (by decide)) (by decide)

end

/-! ### Why packets are freed -/

section
variable {t : ArpTable α} {p : α}

end

end YlsFirmware
