import YlsFirmware.Etharp
import Mathlib.Tactic.SplitIfs

/-! The ARP table over all events: an address has at most one entry, a packet waits only on an entry that is being
resolved, and a stable entry holds the Ethernet address that was claimed last. -/

namespace YlsFirmware
open Packed

variable {α : Type}

/-! ### etharp_find_entry -/

/-- An entry for an address, stable or not. -/
def EtharpEntry.IsFor (e : EtharpEntry α) (ipaddr : BitVec 32) (netif : Nat) : Prop :=
  e.state ≠ .empty ∧ ipaddr = e.ipaddr ∧ netif = e.netif

/-- A candidate is the oldest entry of its kind among those that have been searched. -/
structure Oldest (t : ArpTable α) (P : EtharpEntry α → Prop) (seen : List (Fin arpTableSize))
    (old : Option (Fin arpTableSize)) (age : Nat) : Prop where
  absent : old = none → age = 0 ∧ ∀ j ∈ seen, ¬P (t j)
  present : ∀ i, old = some i → P (t i) ∧ age = (t i).ctime ∧ ∀ j ∈ seen, P (t j) → (t j).ctime ≤ age

section
variable {t : ArpTable α} {P : EtharpEntry α → Prop} {seen : List (Fin arpTableSize)} {old : Option (Fin arpTableSize)}
  {age : Nat} {i : Fin arpTableSize}

theorem Oldest.nil : Oldest t P [] none 0 where
  absent _ := ⟨rfl, fun j hj => absurd hj List.not_mem_nil⟩
  present i h := by cases h

theorem Oldest.skip (h : Oldest t P seen old age) (hi : ¬P (t i)) : Oldest t P (seen ++ [i]) old age where
  absent hnone := by
    refine (h.absent hnone).imp_right fun hall j hj => ?_
    rcases List.mem_append.mp hj with hj | hj
    · exact hall j hj
    · exact List.mem_singleton.mp hj ▸ hi
  present k hk := by
    obtain ⟨hP, hage, hall⟩ := h.present k hk
    refine ⟨hP, hage, fun j hj hPj => ?_⟩
    rcases List.mem_append.mp hj with hj | hj
    · exact hall j hj hPj
    · exact absurd (List.mem_singleton.mp hj ▸ hPj) hi

theorem Oldest.take (h : Oldest t P seen old age) (hi : P (t i)) (hage : age ≤ (t i).ctime) :
    Oldest t P (seen ++ [i]) (some i) (t i).ctime where
  absent hnone := by cases hnone
  present k hk := by
    obtain rfl := Option.some.inj hk
    refine ⟨hi, rfl, fun j hj hPj => ?_⟩
    rcases List.mem_append.mp hj with hj | hj
    · cases hold : old with
      | none => exact absurd hPj ((h.absent hold).2 j hj)
      | some m => exact Nat.le_trans ((h.present m hold).2.2 j hj hPj) hage
    · exact List.mem_singleton.mp hj ▸ Nat.le_refl _

theorem Oldest.keep (h : Oldest t P seen old age) (hage : ¬age ≤ (t i).ctime) : Oldest t P (seen ++ [i]) old age where
  absent hnone := absurd (Nat.zero_le _) ((h.absent hnone).1 ▸ hage)
  present k hk := by
    obtain ⟨hP, hkage, hall⟩ := h.present k hk
    refine ⟨hP, hkage, fun j hj hPj => ?_⟩
    rcases List.mem_append.mp hj with hj | hj
    · exact hall j hj hPj
    · exact List.mem_singleton.mp hj ▸ Nat.le_of_not_le hage

end

/-- An entry whose request is not answered yet, with no packet that waits. -/
def EtharpEntry.Pending (e : EtharpEntry α) : Prop := e.state = .pending ∧ e.q.isSome = false

/-- The same, with a packet. -/
def EtharpEntry.Queued (e : EtharpEntry α) : Prop := e.state = .pending ∧ e.q.isSome = true

def EtharpEntry.Stable (e : EtharpEntry α) : Prop := e.state.isStable = true

/-- The candidates after a part of the search. -/
structure CandidatesOf (t : ArpTable α) (seen : List (Fin arpTableSize)) (c : ArpCandidates) : Prop where
  no_empty : c.empty = none → ∀ j ∈ seen, (t j).state ≠ .empty
  empty : ∀ i, c.empty = some i → (t i).state = .empty
  stable : Oldest t EtharpEntry.Stable seen c.oldStable c.ageStable
  pending : Oldest t EtharpEntry.Pending seen c.oldPending c.agePending
  queue : Oldest t EtharpEntry.Queued seen c.oldQueue c.ageQueue

/-- The search stops at an entry for the address, or there is none and it has its candidates. -/
theorem etharpFindLoop_spec (t : ArpTable α) (ipaddr : BitVec 32) (netif : Nat) {seen is : List (Fin arpTableSize)}
    {c : ArpCandidates} (hc : CandidatesOf t seen c) :
    (∃ i, etharpFindLoop t ipaddr netif is c = .inl i ∧ (t i).IsFor ipaddr netif) ∨
      ∃ c', etharpFindLoop t ipaddr netif is c = .inr c' ∧ (∀ i ∈ is, ¬(t i).IsFor ipaddr netif) ∧
        CandidatesOf t (seen ++ is) c' := by
  induction is generalizing seen c with
  | nil => exact .inr ⟨c, rfl, fun i hi => absurd hi List.not_mem_nil, by rw [List.append_nil]; exact hc⟩
  | cons i is ih =>
    -- what the search does next, with the candidates after the entry `i`
    have hnext : ∀ c', CandidatesOf t (seen ++ [i]) c' → ¬(t i).IsFor ipaddr netif →
        (∃ k, etharpFindLoop t ipaddr netif is c' = .inl k ∧ (t k).IsFor ipaddr netif) ∨
          ∃ c'', etharpFindLoop t ipaddr netif is c' = .inr c'' ∧ (∀ k ∈ i :: is, ¬(t k).IsFor ipaddr netif) ∧
            CandidatesOf t (seen ++ i :: is) c'' := fun c' hc' hi => by
      refine (ih hc').imp_right ?_
      rintro ⟨c'', heq, hall, hcand⟩
      rw [List.append_assoc, List.singleton_append] at hcand
      exact ⟨c'', heq, List.forall_mem_cons.mpr ⟨hi, hall⟩, hcand⟩
    rw [etharpFindLoop]
    by_cases hempty : (t i).state = .empty
    · have hfor : ¬(t i).IsFor ipaddr netif := fun h => h.1 hempty
      have hstable : ¬(t i).Stable := fun h => by
        rw [EtharpEntry.Stable, hempty] at h
        cases h
      have hpending : ¬(t i).Pending := fun h => by
        cases hempty.symm.trans h.1
      have hqueue : ¬(t i).Queued := fun h => by
        cases hempty.symm.trans h.1
      by_cases hfirst : c.empty = none
      · rw [if_pos ⟨hfirst, hempty⟩]
        refine hnext _ ⟨(fun h => by cases h), fun k hk => ?_, hc.stable.skip hstable, hc.pending.skip hpending,
          hc.queue.skip hqueue⟩ hfor
        exact Option.some.inj hk ▸ hempty
      · rw [if_neg (fun h => hfirst h.1), if_neg (not_not_intro hempty)]
        exact hnext c ⟨fun h => absurd h hfirst, hc.empty, hc.stable.skip hstable, hc.pending.skip hpending,
          hc.queue.skip hqueue⟩ hfor
    · have hno : c.empty = none → ∀ j ∈ seen ++ [i], (t j).state ≠ .empty := fun h j hj => by
        rcases List.mem_append.mp hj with hj | hj
        · exact hc.no_empty h j hj
        · exact List.mem_singleton.mp hj ▸ hempty
      rw [if_neg (fun h => hempty h.2), if_pos hempty]
      by_cases hfor : ipaddr = (t i).ipaddr ∧ netif = (t i).netif
      · rw [if_pos hfor]
        exact .inl ⟨i, rfl, hempty, hfor⟩
      · rw [if_neg hfor]
        have hnot : ¬(t i).IsFor ipaddr netif := fun h => hfor h.2
        by_cases hpend : (t i).state = .pending
        · rw [if_pos hpend]
          have hstable : ¬(t i).Stable := fun h => by
            rw [EtharpEntry.Stable, hpend] at h
            cases h
          by_cases hq : (t i).q.isSome = true
          · have hpending : ¬(t i).Pending := fun h => by
              cases hq.symm.trans h.2
            rw [if_pos hq]
            by_cases hage : c.ageQueue ≤ (t i).ctime
            · rw [if_pos hage]
              exact hnext _ ⟨hno, hc.empty, hc.stable.skip hstable, hc.pending.skip hpending,
                hc.queue.take ⟨hpend, hq⟩ hage⟩ hnot
            · rw [if_neg hage]
              exact hnext _ ⟨hno, hc.empty, hc.stable.skip hstable, hc.pending.skip hpending, hc.queue.keep hage⟩ hnot
          · have hqueue : ¬(t i).Queued := fun h => hq h.2
            rw [if_neg hq]
            by_cases hage : c.agePending ≤ (t i).ctime
            · rw [if_pos hage]
              exact hnext _ ⟨hno, hc.empty, hc.stable.skip hstable,
                hc.pending.take ⟨hpend, Bool.eq_false_of_not_eq_true hq⟩ hage, hc.queue.skip hqueue⟩ hnot
            · rw [if_neg hage]
              exact hnext _ ⟨hno, hc.empty, hc.stable.skip hstable, hc.pending.keep hage, hc.queue.skip hqueue⟩ hnot
        · have hstable : (t i).Stable := by
            rw [EtharpEntry.Stable]
            cases hstate : (t i).state with
            | empty => exact absurd hstate hempty
            | pending => exact absurd hstate hpend
            | stable => rfl
            | stableRerequesting1 => rfl
            | stableRerequesting2 => rfl
          have hpending : ¬(t i).Pending := fun h => hpend h.1
          have hqueue : ¬(t i).Queued := fun h => hpend h.1
          rw [if_neg hpend]
          by_cases hage : c.ageStable ≤ (t i).ctime
          · rw [if_pos hage]
            exact hnext _ ⟨hno, hc.empty, hc.stable.take hstable hage, hc.pending.skip hpending,
              hc.queue.skip hqueue⟩ hnot
          · rw [if_neg hage]
            exact hnext _ ⟨hno, hc.empty, hc.stable.keep hage, hc.pending.skip hpending, hc.queue.skip hqueue⟩ hnot

/-- The entry that gives way when the table is full: the oldest stable one, else the oldest pending one without a
    packet, else the oldest pending one. -/
def Evicted (t : ArpTable α) (i : Fin arpTableSize) : Prop :=
  ((t i).Stable ∧ ∀ j, (t j).Stable → (t j).ctime ≤ (t i).ctime) ∨
    ((t i).Pending ∧ (∀ j, ¬(t j).Stable) ∧ ∀ j, (t j).Pending → (t j).ctime ≤ (t i).ctime) ∨
      ((t i).Queued ∧ (∀ j, ¬(t j).Stable ∧ ¬(t j).Pending) ∧ ∀ j, (t j).ctime ≤ (t i).ctime)

theorem EtharpEntry.kind (e : EtharpEntry α) (h : e.state ≠ .empty) : e.Stable ∨ e.Pending ∨ e.Queued := by
  rw [EtharpEntry.Stable, EtharpEntry.Pending, EtharpEntry.Queued]
  cases hstate : e.state with
  | empty => exact absurd hstate h
  | pending =>
    cases hq : e.q.isSome
    · exact .inr (.inl ⟨rfl, rfl⟩)
    · exact .inr (.inr ⟨rfl, rfl⟩)
  | stable => exact .inl rfl
  | stableRerequesting1 => exact .inl rfl
  | stableRerequesting2 => exact .inl rfl

/-- What `etharp_find_entry` does: it finds the entry for the address, or there is none and it makes an empty or an
    evicted entry the one for the address, unless it is to find only. -/
theorem etharpFindEntry_cases (t : ArpTable α) (ipaddr : BitVec 32) (flags : EtharpFlags) (netif : Nat) :
    (∃ i, etharpFindEntry t ipaddr flags netif = (t, [], some i) ∧ (t i).IsFor ipaddr netif) ∨
      (∀ i, ¬(t i).IsFor ipaddr netif) ∧
        (flags = .findOnly ∧ etharpFindEntry t ipaddr flags netif = (t, [], none) ∨
          flags = .tryHard ∧ ∃ i,
            (t i).state = .empty ∧ etharpFindEntry t ipaddr flags netif =
                (Function.update t i ((t i).created ipaddr netif), [], some i) ∨
              (∀ j, (t j).state ≠ .empty) ∧ Evicted t i ∧ etharpFindEntry t ipaddr flags netif =
                (Function.update t i ((t i).freed.created ipaddr netif), (t i).frees, some i)) := by
  have hall : ∀ i : Fin arpTableSize, i ∈ List.finRange arpTableSize := List.mem_finRange
  have hnil : CandidatesOf t [] ⟨none, none, none, none, 0, 0, 0⟩ :=
    ⟨fun _ j hj => absurd hj List.not_mem_nil, (fun i hi => by cases hi), .nil, .nil, .nil⟩
  rcases @etharpFindLoop_spec α t ipaddr netif [] (List.finRange arpTableSize) _ hnil with
    ⟨i, hloop, hfor⟩ | ⟨c, hloop, hnone, hc⟩
  · refine .inl ⟨i, ?_, hfor⟩
    rw [etharpFindEntry, hloop]
  · refine .inr ⟨fun i => hnone i (hall i), ?_⟩
    rw [List.nil_append] at hc
    rw [etharpFindEntry, hloop]
    dsimp only
    cases flags with
    | findOnly => exact .inl ⟨rfl, rfl⟩
    | tryHard =>
      refine .inr ⟨rfl, ?_⟩
      rw [if_neg (by decide)]
      cases hempty : c.empty with
      | some i => exact ⟨i, .inl ⟨hc.empty i hempty, rfl⟩⟩
      | none =>
        have hfull : ∀ j, (t j).state ≠ .empty := fun j => hc.no_empty hempty j (hall j)
        cases hstable : c.oldStable with
        | some i =>
          obtain ⟨hi, hage, hold⟩ := hc.stable.present i hstable
          rw [hage] at hold
          exact ⟨i, .inr ⟨hfull, .inl ⟨hi, fun j hj => hold j (hall j) hj⟩, rfl⟩⟩
        | none =>
          have hnostable : ∀ j, ¬(t j).Stable := fun j => (hc.stable.absent hstable).2 j (hall j)
          cases hpending : c.oldPending with
          | some i =>
            obtain ⟨hi, hage, hold⟩ := hc.pending.present i hpending
            rw [hage] at hold
            exact ⟨i, .inr ⟨hfull, .inr (.inl ⟨hi, hnostable, fun j hj => hold j (hall j) hj⟩), rfl⟩⟩
          | none =>
            have hnopending : ∀ j, ¬(t j).Pending := fun j => (hc.pending.absent hpending).2 j (hall j)
            have hqueued : ∀ j, (t j).Queued := fun j =>
              (((t j).kind (hfull j)).resolve_left (hnostable j)).resolve_left (hnopending j)
            cases hqueue : c.oldQueue with
            | some i =>
              obtain ⟨hi, hage, hold⟩ := hc.queue.present i hqueue
              rw [hage] at hold
              exact ⟨i, .inr ⟨hfull, .inr (.inr ⟨hi, fun j => ⟨hnostable j, hnopending j⟩,
                fun j => hold j (hall j) (hqueued j)⟩), rfl⟩⟩
            | none => exact absurd (hqueued ⟨0, by decide⟩) ((hc.queue.absent hqueue).2 _ (hall _))

/-! ### The invariant -/

/-- What holds of each entry between two events. -/
structure EntryOk (e : EtharpEntry α) : Prop where
  empty : e.state = .empty → e.q = none
  stable : e.Stable → e.q = none
  age : e.state ≠ .empty → e.ctime < arpMaxage
  pending : e.state = .pending → e.ctime < arpMaxpending

theorem EntryOk.pending_of_packet {e : EtharpEntry α} (h : EntryOk e) {p : α} (hq : e.q = some p) :
    e.state = .pending := by
  have hne : e.state ≠ .empty := fun hempty => by cases hq.symm.trans (h.empty hempty)
  rcases e.kind hne with hs | hp | hp
  · cases hq.symm.trans (h.stable hs)
  · exact hp.1
  · exact hp.1

/-- The Ethernet address that was claimed last for an address of an interface, and how many ticks ago. -/
abbrev Claims := Nat → BitVec 32 → Option (EthAddr × Nat)

/-- What holds of the table. `For` tells which packets are for a host. -/
structure ArpOk (For : Nat → BitVec 32 → α → Prop) (claims : Claims) (t : ArpTable α) : Prop where
  entry : ∀ i, EntryOk (t i)
  unique : ∀ i j, (t i).state ≠ .empty → (t j).IsFor (t i).ipaddr (t i).netif → i = j
  claimed : ∀ i, (t i).Stable → claims (t i).netif (t i).ipaddr = some ((t i).ethaddr, (t i).ctime)
  waits : ∀ i, ∀ p ∈ (t i).q, For (t i).netif (t i).ipaddr p

section
variable {For : Nat → BitVec 32 → α → Prop} {claims : Claims} {Asked : Nat → BitVec 32 → EthAddr → Prop}
  {t : ArpTable α} {i : Fin arpTableSize} {ipaddr : BitVec 32} {netif : Nat}

theorem EtharpEntry.Stable.ne_empty {e : EtharpEntry α} (h : e.Stable) : e.state ≠ .empty := fun hempty => by
  rw [EtharpEntry.Stable, hempty] at h
  cases h

theorem EtharpEntry.Stable.ne_pending {e : EtharpEntry α} (h : e.Stable) : e.state ≠ .pending := fun hpending => by
  rw [EtharpEntry.Stable, hpending] at h
  cases h

/-- No entry but `i` is for an address. -/
def OnlyFor (t : ArpTable α) (i : Fin arpTableSize) (ipaddr : BitVec 32) (netif : Nat) : Prop :=
  ∀ j, (t j).IsFor ipaddr netif → j = i

/-- An entry is changed that stays or becomes the only one for its address. -/
theorem ArpOk.set (h : ArpOk For claims t) (i : Fin arpTableSize) {e : EtharpEntry α} (he : EntryOk e)
    (honly : e.state ≠ .empty → OnlyFor t i e.ipaddr e.netif)
    (hclaim : e.Stable → claims e.netif e.ipaddr = some (e.ethaddr, e.ctime))
    (hwaits : ∀ p ∈ e.q, For e.netif e.ipaddr p) : ArpOk For claims (Function.update t i e) := by
  have hself : Function.update t i e i = e := Function.update_self i e t
  have hother : ∀ j, j ≠ i → Function.update t i e j = t j := fun j hj => Function.update_of_ne hj e t
  refine ⟨fun j => ?_, fun j k hj hk => ?_, fun j hj => ?_, fun j p hp => ?_⟩
  · by_cases hji : j = i
    · rw [hji, hself]
      exact he
    · rw [hother j hji]
      exact h.entry j
  · by_cases hji : j = i
    · rw [hji, hself] at hk
      by_cases hki : k = i
      · rw [hji, hki]
      · rw [hother k hki] at hk
        rw [hji, hself] at hj
        exact absurd (honly hj k hk) hki
    · rw [hother j hji] at hj hk
      by_cases hki : k = i
      · rw [hki, hself] at hk
        refine absurd (honly hk.1 j ⟨hj, ?_⟩) hji
        exact ⟨hk.2.1.symm, hk.2.2.symm⟩
      · rw [hother k hki] at hk
        exact h.unique j k hj hk
  · by_cases hji : j = i
    · rw [hji, hself] at hj ⊢
      exact hclaim hj
    · rw [hother j hji] at hj ⊢
      exact h.claimed j hj
  · by_cases hji : j = i
    · rw [hji, hself] at hp ⊢
      exact hwaits p hp
    · rw [hother j hji] at hp ⊢
      exact h.waits j p hp

/-- An entry for an address is the only one. -/
theorem ArpOk.onlyFor (h : ArpOk For claims t) (hi : (t i).IsFor ipaddr netif) : OnlyFor t i ipaddr netif := by
  intro j hj
  obtain ⟨hne, rfl, rfl⟩ := hi
  exact (h.unique i j hne hj).symm

/-- After the search, the entry that it gives is the only one for the address. -/
structure Found (t : ArpTable α) (i : Fin arpTableSize) (ipaddr : BitVec 32) (netif : Nat) : Prop where
  only : OnlyFor t i ipaddr netif
  ipaddr_eq : (t i).ipaddr = ipaddr
  netif_eq : (t i).netif = netif
  fresh : (t i).state = .empty → (t i).ctime = 0

theorem EntryOk.created {e : EtharpEntry α} (hempty : e.state = .empty) (hq : e.q = none) :
    EntryOk (e.created ipaddr netif) where
  empty _ := hq
  stable _ := hq
  age h := absurd hempty h
  pending h := by cases hempty.symm.trans h

theorem Found.created (hnone : ∀ j, ¬(t j).IsFor ipaddr netif) (e : EtharpEntry α) :
    Found (Function.update t i (e.created ipaddr netif)) i ipaddr netif := by
  have hself : Function.update t i (e.created ipaddr netif) i = e.created ipaddr netif := Function.update_self i _ t
  refine ⟨fun j hj => ?_, by rw [hself]; rfl, by rw [hself]; rfl, fun _ => by rw [hself]; rfl⟩
  by_contra hji
  rw [Function.update_of_ne hji] at hj
  exact hnone j hj

/-- The search keeps the invariant. -/
theorem ArpOk.find (h : ArpOk For claims t) (flags : EtharpFlags) :
    ArpOk For claims (etharpFindEntry t ipaddr flags netif).1 ∧
      (∀ i, (etharpFindEntry t ipaddr flags netif).2.2 = some i →
        Found (etharpFindEntry t ipaddr flags netif).1 i ipaddr netif) ∧
      ((etharpFindEntry t ipaddr flags netif).2.2 = none →
        flags = .findOnly ∧ ∀ j, ¬((etharpFindEntry t ipaddr flags netif).1 j).IsFor ipaddr netif) := by
  rcases etharpFindEntry_cases t ipaddr flags netif with
    ⟨i, hfind, hfor⟩ | ⟨hnone, ⟨hflags, hfind⟩ | ⟨-, i, ⟨hempty, hfind⟩ | ⟨hfull, -, hfind⟩⟩⟩
  · rw [hfind]
    refine ⟨h, fun j hj => ?_, fun hn => by cases hn⟩
    obtain rfl := Option.some.inj hj
    exact ⟨h.onlyFor hfor, hfor.2.1.symm, hfor.2.2.symm, fun hempty => absurd hempty hfor.1⟩
  · rw [hfind]
    exact ⟨h, (fun j hj => by cases hj), fun _ => ⟨hflags, hnone⟩⟩
  · rw [hfind]
    refine ⟨?_, fun j hj => ?_, fun hn => by cases hn⟩
    · have hq := (h.entry i).empty hempty
      refine h.set i (.created hempty hq) (fun hne => absurd hempty hne) (fun hs => absurd hempty hs.ne_empty)
        fun p hp => ?_
      cases hq.symm.trans hp
    · obtain rfl := Option.some.inj hj
      exact .created hnone _
  · rw [hfind]
    refine ⟨?_, fun j hj => ?_, fun hn => by cases hn⟩
    · refine h.set i (.created rfl rfl) (fun hne => absurd rfl hne) (fun hs => by cases hs) fun p hp => ?_
      cases hp
    · obtain rfl := Option.some.inj hj
      exact .created hnone _

theorem EntryOk.freed (e : EtharpEntry α) : EntryOk e.freed :=
  ⟨fun _ => rfl, fun _ => rfl, fun hne => absurd rfl hne, fun hpending => by cases hpending⟩

/-- An entry is emptied. -/
theorem ArpOk.free (h : ArpOk For claims t) (i : Fin arpTableSize) :
    ArpOk For claims (Function.update t i (t i).freed) :=
  h.set i (.freed _) (fun hne => absurd rfl hne) (fun hs => by cases hs) (fun p hp => by cases hp)

/-- A new claim for an address -/
def Claims.claim (claims : Claims) (netif : Nat) (ipaddr : BitVec 32) (ethaddr : EthAddr) : Claims := fun n a =>
  if n = netif ∧ a = ipaddr then some (ethaddr, 0) else claims n a

/-- A claim for an address without an entry does not matter. -/
theorem ArpOk.claim (h : ArpOk For claims t) (hnone : ∀ j, ¬(t j).IsFor ipaddr netif) (ethaddr : EthAddr) :
    ArpOk For (claims.claim netif ipaddr ethaddr) t := by
  refine ⟨h.entry, h.unique, fun j hj => ?_, h.waits⟩
  have hother : ¬((t j).netif = netif ∧ (t j).ipaddr = ipaddr) := fun heq =>
    hnone j ⟨hj.ne_empty, heq.2.symm, heq.1.symm⟩
  rw [Claims.claim, if_neg hother]
  exact h.claimed j hj

/-- An entry learns the address that is claimed. -/
theorem ArpOk.learn (h : ArpOk For claims t) (hi : Found t i ipaddr netif) (ethaddr : EthAddr) :
    ArpOk For (claims.claim netif ipaddr ethaddr)
      (Function.update t i ((t i).learned netif ethaddr)) := by
  have hnone : ∀ j, ¬(Function.update t i (t i).freed j).IsFor ipaddr netif := fun j hj => by
    by_cases hji : j = i
    · rw [hji, Function.update_self] at hj
      exact hj.1 rfl
    · rw [Function.update_of_ne hji] at hj
      exact hji (hi.only j hj)
  have hok : EntryOk ((t i).learned netif ethaddr) :=
    ⟨(fun h => by cases h), fun _ => rfl, fun _ => Nat.zero_lt_succ _, (fun h => by cases h)⟩
  have hclaim : claims.claim netif ipaddr ethaddr netif (t i).ipaddr = some (ethaddr, 0) :=
    if_pos ⟨rfl, hi.ipaddr_eq⟩
  have hset := ((h.free i).claim hnone ethaddr).set i hok
    (fun _ j hj => absurd (hi.ipaddr_eq ▸ hj) (hnone j)) (fun _ => hclaim) (fun p hp => by cases hp)
  rwa [Function.update_idem] at hset

/-- All entries are changed, and those that are not emptied keep their addresses. -/
theorem ArpOk.map (h : ArpOk For claims t) {claims' : Claims} {t' : ArpTable α}
    (haddr : ∀ i, (t' i).state ≠ .empty → (t' i).ipaddr = (t i).ipaddr ∧ (t' i).netif = (t i).netif)
    (hne : ∀ i, (t' i).state ≠ .empty → (t i).state ≠ .empty) (hentry : ∀ i, EntryOk (t' i))
    (hclaim : ∀ i, (t' i).Stable → claims' (t i).netif (t i).ipaddr = some ((t' i).ethaddr, (t' i).ctime))
    (hwaits : ∀ i, ∀ p ∈ (t' i).q, p ∈ (t i).q) : ArpOk For claims' t' := by
  refine ⟨hentry, fun i j hi hj => h.unique i j (hne i hi) ⟨hne j hj.1, ?_, ?_⟩, fun i hi => ?_, fun i p hp => ?_⟩
  · rw [← (haddr i hi).1, ← (haddr j hj.1).1, hj.2.1]
  · rw [← (haddr i hi).2, ← (haddr j hj.1).2, hj.2.2]
  · rw [(haddr i hi.ne_empty).1, (haddr i hi.ne_empty).2]
    exact hclaim i hi
  · have hstate : (t' i).state ≠ .empty := fun hempty => by cases hp.symm.trans ((hentry i).empty hempty)
    rw [(haddr i hstate).1, (haddr i hstate).2]
    exact h.waits i p (hwaits i p hp)

/-- What one tick does to an entry. -/
theorem etharpTmrEntry_cases {e : EtharpEntry α} (h : EntryOk e) :
    e.state = .empty ∧ etharpTmrEntry e = (e, []) ∨
      e.state ≠ .empty ∧ (arpMaxage ≤ e.ctime + 1 ∨ e.state = .pending ∧ arpMaxpending ≤ e.ctime + 1) ∧
        etharpTmrEntry e = ({ e with ctime := e.ctime + 1 }.freed, e.frees) ∨
      e.state = .pending ∧ e.ctime + 1 < arpMaxpending ∧
        etharpTmrEntry e = ({ e with ctime := e.ctime + 1 }, [.request e.netif e.ipaddr ethbroadcast]) ∨
      e.Stable ∧ e.ctime + 1 < arpMaxage ∧
        ∃ s : EtharpState, s.isStable = true ∧ etharpTmrEntry e = ({ e with ctime := e.ctime + 1, state := s }, []) := by
  by_cases hempty : e.state = .empty
  · exact .inl ⟨hempty, if_pos hempty⟩
  · have hage := h.age hempty
    rw [arpMaxage] at hage
    have hctime : (e.ctime + 1) % 2 ^ 16 = e.ctime + 1 := Nat.mod_eq_of_lt (by omega)
    rw [etharpTmrEntry, if_neg hempty]
    dsimp only
    rw [hctime]
    by_cases hold : arpMaxage ≤ e.ctime + 1 ∨ e.state = .pending ∧ arpMaxpending ≤ e.ctime + 1
    · rw [if_pos hold]
      exact .inr (.inl ⟨hempty, hold, rfl⟩)
    · rw [if_neg hold]
      have hyoung : e.ctime + 1 < arpMaxage := Nat.lt_of_not_le fun hle => hold (.inl hle)
      have hpend : e.state = .pending → e.ctime + 1 < arpMaxpending := fun hpending =>
        Nat.lt_of_not_le fun hle => hold (.inr ⟨hpending, hle⟩)
      obtain ⟨q, ipaddr, netif, ethaddr, ctime, state⟩ := e
      cases state with
      | empty => exact absurd rfl hempty
      | pending => exact .inr (.inr (.inl ⟨rfl, hpend rfl, rfl⟩))
      | stable => exact .inr (.inr (.inr ⟨rfl, hyoung, .stable, rfl, rfl⟩))
      | stableRerequesting1 => exact .inr (.inr (.inr ⟨rfl, hyoung, .stableRerequesting2, rfl, rfl⟩))
      | stableRerequesting2 => exact .inr (.inr (.inr ⟨rfl, hyoung, .stable, rfl, rfl⟩))

/-- The claims, one tick later -/
def Claims.tick (claims : Claims) : Claims := fun n a => (claims n a).map fun c => (c.1, c.2 + 1)

/-- An entry after a tick -/
structure Ticked (e e' : EtharpEntry α) : Prop where
  ok : EntryOk e'
  addr : e'.state ≠ .empty → e'.ipaddr = e.ipaddr ∧ e'.netif = e.netif
  ne_empty : e'.state ≠ .empty → e.state ≠ .empty
  stable : e'.Stable → e.Stable ∧ e'.ethaddr = e.ethaddr ∧ e'.ctime = e.ctime + 1
  waits : ∀ p ∈ e'.q, p ∈ e.q

theorem EntryOk.ticked {e : EtharpEntry α} (h : EntryOk e) : Ticked e (etharpTmrEntry e).1 := by
  rcases etharpTmrEntry_cases h with ⟨hempty, heq⟩ | ⟨hne, -, heq⟩ | ⟨hpending, hyoung, heq⟩ |
    ⟨hstable, hyoung, s, hs, heq⟩
  · rw [heq]
    exact ⟨h, fun _ => ⟨rfl, rfl⟩, id, fun hs => absurd hempty hs.ne_empty, fun p hp => hp⟩
  · rw [heq]
    exact ⟨.freed { e with ctime := e.ctime + 1 }, fun hempty => absurd rfl hempty, fun _ => hne,
      (fun hs => by cases hs), (fun p hp => by cases hp)⟩
  · rw [heq]
    have hage : e.ctime + 1 < arpMaxage := Nat.lt_trans hyoung (by decide)
    exact ⟨⟨fun hempty => (by cases hempty.symm.trans hpending), fun hs => absurd hpending hs.ne_pending, fun _ => hage,
      fun _ => hyoung⟩, fun _ => ⟨rfl, rfl⟩, id, fun hs => absurd hpending hs.ne_pending, fun p hp => hp⟩
  · rw [heq]
    have hnot : s ≠ .empty ∧ s ≠ .pending := by
      constructor <;> (rintro rfl; cases hs)
    exact ⟨⟨fun hempty => absurd hempty hnot.1, fun _ => h.stable hstable, fun _ => hyoung,
      fun hpending => absurd hpending hnot.2⟩, fun _ => ⟨rfl, rfl⟩, fun _ => hstable.ne_empty,
      fun _ => ⟨hstable, rfl, rfl⟩, fun p hp => hp⟩

theorem ArpOk.tmr (h : ArpOk For claims t) : ArpOk For claims.tick (etharpTmr t).1 := by
  have hticked : ∀ i, Ticked (t i) ((etharpTmr t).1 i) := fun i => (h.entry i).ticked
  refine h.map (fun i => (hticked i).addr) (fun i => (hticked i).ne_empty) (fun i => (hticked i).ok)
    (fun i hi => ?_) fun i => (hticked i).waits
  obtain ⟨hstable, hethaddr, hctime⟩ := (hticked i).stable hi
  rw [Claims.tick, h.claimed i hstable, Option.map_some, hethaddr, hctime]

theorem ArpOk.cleanupNetif (h : ArpOk For claims t) (netif : Netif) :
    ArpOk For claims (etharpCleanupNetif t netif).1 := by
  have hentry : ∀ i, (etharpCleanupNetif t netif).1 i = (t i).freed ∨ (etharpCleanupNetif t netif).1 i = t i := by
    intro i
    rw [etharpCleanupNetif]
    dsimp only
    split_ifs
    · exact .inl rfl
    · exact .inr rfl
  refine h.map (fun i hi => ?_) (fun i hi => ?_) (fun i => ?_) (fun i hi => ?_) fun i p hp => ?_
  · rcases hentry i with heq | heq <;> rw [heq] at hi ⊢
    · exact absurd rfl hi
    · exact ⟨rfl, rfl⟩
  · rcases hentry i with heq | heq <;> rw [heq] at hi
    · exact absurd rfl hi
    · exact hi
  · rcases hentry i with heq | heq <;> rw [heq]
    · exact .freed _
    · exact h.entry i
  · rcases hentry i with heq | heq <;> rw [heq] at hi ⊢
    · cases hi
    · exact h.claimed i hi
  · rcases hentry i with heq | heq <;> rw [heq] at hp
    · cases hp
    · exact hp

/-! ### What the functions do to the table, and what they send -/

theorem mem_frees {e : EtharpEntry α} {out : EtharpOut α} (h : out ∈ e.frees) : ∃ p, out = .free p := by
  obtain ⟨p, -, rfl⟩ := List.mem_map.mp h
  exact ⟨p, rfl⟩

/-- The search sends nothing. -/
theorem etharpFindEntry_outs {flags : EtharpFlags} {out : EtharpOut α}
    (h : out ∈ (etharpFindEntry t ipaddr flags netif).2.1) : ∃ p, out = .free p := by
  rcases etharpFindEntry_cases t ipaddr flags netif with
    ⟨i, hfind, -⟩ | ⟨-, ⟨-, hfind⟩ | ⟨-, i, ⟨-, hfind⟩ | ⟨-, -, hfind⟩⟩⟩ <;> rw [hfind] at h
  · cases h
  · cases h
  · cases h
  · exact mem_frees h

/-- An output is right: it sends a packet to the Ethernet address that was claimed last for the host that the packet is
    for, by a message that is not too old. A request goes to all hosts, or to such an address. `Asked` tells which hosts
    are to be replied to. -/
def Right (For : Nat → BitVec 32 → α → Prop) (claims : Claims) (Asked : Nat → BitVec 32 → EthAddr → Prop) :
    EtharpOut α → Prop
  | .output n q dst | .dequeue n q dst =>
    ∃ hop age, For n hop q ∧ claims n hop = some (dst, age) ∧ age < arpMaxage
  | .request n ipaddr dst => dst = ethbroadcast ∨ ∃ age, claims n ipaddr = some (dst, age) ∧ age < arpMaxage
  | .reply n ipaddr dst => Asked n ipaddr dst
  | .queue _ | .free _ => True

theorem Right.of_find {flags : EtharpFlags} {out : EtharpOut α}
    (h : out ∈ (etharpFindEntry t ipaddr flags netif).2.1) : Right For claims Asked out := by
  obtain ⟨p, rfl⟩ := etharpFindEntry_outs h
  exact trivial

theorem ArpOk.update (h : ArpOk For claims t) {netif : Netif} (flags : EtharpFlags) (ethaddr : EthAddr)
    (hip : (ip4AddrIsany ipaddr || ip4AddrIsbroadcast ipaddr netif || ip4AddrIsmulticast ipaddr) = false) :
    ArpOk For (claims.claim netif.num ipaddr ethaddr) (etharpUpdateArpEntry t netif ipaddr ethaddr flags).1 ∧
      ∀ out ∈ (etharpUpdateArpEntry t netif ipaddr ethaddr flags).2.1,
        Right For (claims.claim netif.num ipaddr ethaddr) Asked out := by
  obtain ⟨hok, hfound, hnone⟩ := @ArpOk.find α For claims t ipaddr netif.num h flags
  have houts := @Right.of_find α For (claims.claim netif.num ipaddr ethaddr) Asked t ipaddr netif.num flags
  rw [etharpUpdateArpEntry, hip, if_neg Bool.false_ne_true]
  generalize etharpFindEntry t ipaddr flags netif.num = r at hok hfound hnone houts
  obtain ⟨t₁, outs, found⟩ := r
  cases found with
  | none => exact ⟨hok.claim (hnone rfl).2 ethaddr, fun out hout => houts hout⟩
  | some i =>
    have hi := hfound i rfl
    dsimp only at hok hi ⊢
    refine ⟨hok.learn hi ethaddr, fun out hout => ?_⟩
    rcases List.mem_append.mp hout with hout | hout
    · exact houts hout
    · obtain ⟨p, hp, rfl⟩ := List.mem_map.mp hout
      have hfor := hok.waits i p (Option.mem_toList.mp hp)
      rw [hi.ipaddr_eq, hi.netif_eq] at hfor
      exact ⟨ipaddr, 0, hfor, if_pos ⟨rfl, rfl⟩, Nat.zero_lt_succ _⟩

/-- The claims after an event -/
def Claims.after (claims : Claims) : EtharpEvent α → Claims
  | .tmr => claims.tick
  | .input netif hdr =>
    if hdr.valid && !(ip4AddrIsany hdr.sipaddr || ip4AddrIsbroadcast hdr.sipaddr netif ||
        ip4AddrIsmulticast hdr.sipaddr) then claims.claim netif.num hdr.sipaddr hdr.shwaddr
    else claims
  | .output _ _ _ _ _ | .query _ _ _ _ _ | .cleanupNetif _ => claims

/-- A message asks for the address of the interface, which is not its own sender's: its sender is to be replied to. -/
structure Asks (netif : Netif) (hdr : EtharpHdr) (n : Nat) (ipaddr : BitVec 32) (dst : EthAddr) : Prop where
  valid : hdr.valid = true
  request : hdr.opcode = lwipHtons arpRequest
  forUs : hdr.dipaddr = netif.ipAddr
  fromOther : hdr.sipaddr ≠ netif.ipAddr
  netif : n = netif.num
  ipaddr : ipaddr = hdr.sipaddr
  dst : dst = hdr.shwaddr

theorem ArpOk.input (h : ArpOk For claims t) (netif : Netif) (hdr : EtharpHdr) :
    ArpOk For (claims.after (.input netif hdr : EtharpEvent α)) (etharpInput t hdr netif).1 ∧
      ∀ out ∈ (etharpInput t hdr netif).2,
        Right For (claims.after (.input netif hdr : EtharpEvent α)) (Asks netif hdr) out := by
  rw [etharpInput, Claims.after]
  by_cases hvalid : hdr.valid = true
  · rw [hvalid, Bool.not_true, if_neg Bool.false_ne_true, Bool.true_and]
    dsimp only
    generalize hflags : (if (!ip4AddrIsany netif.ipAddr && hdr.dipaddr == netif.ipAddr) = true then
      EtharpFlags.tryHard else EtharpFlags.findOnly) = flags
    generalize hclaims : (if (!(ip4AddrIsany hdr.sipaddr || ip4AddrIsbroadcast hdr.sipaddr netif ||
      ip4AddrIsmulticast hdr.sipaddr)) = true then claims.claim netif.num hdr.sipaddr hdr.shwaddr else claims) = claims'
    have hupdate : ArpOk For claims' (etharpUpdateArpEntry t netif hdr.sipaddr hdr.shwaddr flags).1 ∧
        ∀ out ∈ (etharpUpdateArpEntry t netif hdr.sipaddr hdr.shwaddr flags).2.1,
          Right For claims' (Asks netif hdr) out := by
      rw [← hclaims]
      cases hip : ip4AddrIsany hdr.sipaddr || ip4AddrIsbroadcast hdr.sipaddr netif || ip4AddrIsmulticast hdr.sipaddr
      · rw [Bool.not_false, if_pos rfl]
        exact h.update flags hdr.shwaddr hip
      · rw [Bool.not_true, if_neg Bool.false_ne_true, etharpUpdateArpEntry, hip, if_pos rfl]
        exact ⟨h, fun out hout => by cases hout⟩
    generalize etharpUpdateArpEntry t netif hdr.sipaddr hdr.shwaddr flags = r at hupdate ⊢
    split_ifs with hreply
    · refine ⟨hupdate.1, fun out hout => ?_⟩
      rcases List.mem_append.mp hout with hout | hout
      · exact hupdate.2 out hout
      · obtain ⟨hrequest, hfor, hfrom⟩ := hreply
        rw [Bool.and_eq_true, beq_iff_eq] at hfor
        rw [hfor.1, Bool.true_and, beq_eq_false_iff_ne] at hfrom
        rw [List.mem_singleton.mp hout]
        exact ⟨hvalid, hrequest, hfor.2, hfrom, rfl, rfl, rfl⟩
    · exact hupdate
  · rw [Bool.eq_false_of_not_eq_true hvalid, Bool.not_false, if_pos rfl, Bool.false_and, if_neg Bool.false_ne_true]
    exact ⟨h, fun out hout => by cases hout⟩

/-- An entry after a query for it -/
structure Queried (e e' : EtharpEntry α) : Prop where
  ok : EntryOk e'
  ipaddr : e'.ipaddr = e.ipaddr
  netif : e'.netif = e.netif
  ne_empty : e'.state ≠ .empty
  stable : e'.Stable → e.Stable ∧ e'.ethaddr = e.ethaddr ∧ e'.ctime = e.ctime
  q : e'.q = e.q

theorem EntryOk.queried {e : EtharpEntry α} (h : EntryOk e) (hnetif : e.netif = netif)
    (hfresh : e.state = .empty → e.ctime = 0) (noPacket requestOk : Bool) :
    Queried e (e.queried netif noPacket requestOk) := by
  rw [EtharpEntry.queried]
  by_cases hempty : e.state = .empty
  · rw [if_pos hempty]
    have hage : e.ctime < arpMaxpending := by
      rw [hfresh hempty]
      exact Nat.zero_lt_succ _
    exact ⟨⟨(fun h => by cases h), (fun h => by cases h), fun _ => Nat.lt_trans hage (by decide), fun _ => hage⟩, rfl,
      hnetif.symm, (fun h => by cases h), (fun h => by cases h), rfl⟩
  · rw [if_neg hempty]
    by_cases hreset : noPacket = true ∧ requestOk = true ∧ e.state = .pending
    · rw [if_pos hreset]
      exact ⟨⟨h.empty, h.stable, fun _ => Nat.zero_lt_succ _, fun _ => Nat.zero_lt_succ _⟩, rfl, rfl, hempty,
        fun hs => absurd hreset.2.2 hs.ne_pending, rfl⟩
    · rw [if_neg hreset]
      exact ⟨h, rfl, rfl, hempty, fun hs => ⟨hs, rfl, rfl⟩, rfl⟩

theorem ArpOk.query {s : Etharp α} (h : ArpOk For claims s.arpTable) (needsCopy : α → Bool) {netif : Netif}
    {q clone : Option α} (requestOk : Bool) (hq : ∀ p ∈ q, For netif.num ipaddr p)
    (hclone : ∀ p ∈ clone, For netif.num ipaddr p) :
    ArpOk For claims (etharpQuery needsCopy s netif ipaddr q requestOk clone).1.arpTable ∧
      ∀ out ∈ (etharpQuery needsCopy s netif ipaddr q requestOk clone).2.1, Right For claims Asked out := by
  rw [etharpQuery]
  by_cases hip : (ip4AddrIsbroadcast ipaddr netif || ip4AddrIsmulticast ipaddr || ip4AddrIsany ipaddr) = true
  · rw [if_pos hip]
    exact ⟨h, fun out hout => by cases hout⟩
  rw [if_neg hip]
  obtain ⟨hok, hfound, -⟩ := @ArpOk.find α For claims s.arpTable ipaddr netif.num h .tryHard
  have houts := @Right.of_find α For claims Asked s.arpTable ipaddr netif.num .tryHard
  generalize etharpFindEntry s.arpTable ipaddr .tryHard netif.num = r at hok hfound houts
  obtain ⟨t, outs, found⟩ := r
  cases found with
  | none => exact ⟨hok, fun out hout => houts hout⟩
  | some i =>
    have hi := hfound i rfl
    dsimp only at hok hi houts ⊢
    generalize hasked : (if (decide ((t i).state = .empty) || q.isNone) && requestOk then
      outs ++ [EtharpOut.request netif.num ipaddr ethbroadcast] else outs) = outs'
    have houts' : ∀ out ∈ outs', Right For claims Asked out := by
      rw [← hasked]
      split_ifs
      · intro out hout
        rcases List.mem_append.mp hout with hout | hout
        · exact houts hout
        · rw [List.mem_singleton.mp hout]
          exact .inl rfl
      · exact fun out hout => houts hout
    have hqueried := (hok.entry i).queried hi.netif_eq hi.fresh q.isNone requestOk
    generalize (t i).queried netif.num q.isNone requestOk = e at hqueried ⊢
    have hipaddr : e.ipaddr = ipaddr := hqueried.ipaddr.trans hi.ipaddr_eq
    have hnetif : e.netif = netif.num := hqueried.netif.trans hi.netif_eq
    have honly : OnlyFor t i e.ipaddr e.netif := by
      rw [hipaddr, hnetif]
      exact hi.only
    have hclaim : e.Stable → claims e.netif e.ipaddr = some (e.ethaddr, e.ctime) := fun hs => by
      obtain ⟨hstable, hethaddr, hctime⟩ := hqueried.stable hs
      rw [hqueried.ipaddr, hqueried.netif, hethaddr, hctime]
      exact hok.claimed i hstable
    have hset : ArpOk For claims (Function.update t i e) := by
      refine hok.set i hqueried.ok (fun _ => honly) hclaim fun p hp => ?_
      rw [hqueried.ipaddr, hqueried.netif]
      exact hok.waits i p (hqueried.q ▸ hp)
    cases q with
    | none => exact ⟨hset, houts'⟩
    | some q =>
      dsimp only
      by_cases hstable : e.state.isStable = true
      · rw [if_pos hstable]
        refine ⟨hset, fun out hout => ?_⟩
        rcases List.mem_append.mp hout with hout | hout
        · exact houts' out hout
        · rw [List.mem_singleton.mp hout]
          have hc := hclaim hstable
          rw [hipaddr, hnetif] at hc
          exact ⟨ipaddr, e.ctime, hq q rfl, hc, hqueried.ok.age hqueried.ne_empty⟩
      · rw [if_neg hstable]
        have hpending : e.state = .pending := by
          rcases e.kind hqueried.ne_empty with hs | hp | hp
          · exact absurd hs hstable
          · exact hp.1
          · exact hp.1
        have htaken : ∀ p ∈ (if needsCopy q then clone else some q), For netif.num ipaddr p := by
          intro p hp
          split_ifs at hp
          · exact hclone p hp
          · exact hq p hp
        generalize (if needsCopy q then clone else some q) = taken at htaken ⊢
        cases taken with
        | none => exact ⟨hset, houts'⟩
        | some p =>
          refine ⟨hok.set i (e := { e with q := some p }) ⟨fun hempty => absurd hempty hqueried.ne_empty,
            fun hs => absurd hs hstable, hqueried.ok.age, hqueried.ok.pending⟩ (fun _ => honly)
            (fun hs => absurd hs hstable) fun p' hp' => ?_, fun out hout => ?_⟩
          · obtain rfl := Option.some.inj hp'
            dsimp only
            rw [hipaddr, hnetif]
            exact htaken p rfl
          · rcases List.mem_append.mp hout with hout | hout
            · exact houts' out hout
            · rcases List.mem_append.mp hout with hout | hout
              · obtain ⟨p', rfl⟩ := mem_frees hout
                exact trivial
              · rw [List.mem_singleton.mp hout]
                exact trivial

theorem EtharpEntry.resolves_iff {e : EtharpEntry α} :
    e.resolves netif ipaddr = true ↔ e.Stable ∧ e.netif = netif ∧ ipaddr = e.ipaddr := by
  rw [EtharpEntry.resolves, Bool.and_eq_true, Bool.and_eq_true, beq_iff_eq, beq_iff_eq, and_assoc]
  rfl

theorem ArpOk.outputToArpIndex (h : ArpOk For claims t) {netif : Netif} {q : α} (requestOk : Bool)
    (hi : (t i).resolves netif.num ipaddr = true) (hq : For netif.num ipaddr q) :
    ArpOk For claims (etharpOutputToArpIndex t netif q i requestOk).1 ∧
      ∀ out ∈ (etharpOutputToArpIndex t netif q i requestOk).2, Right For claims Asked out := by
  obtain ⟨hstable, hnetif, hipaddr⟩ := EtharpEntry.resolves_iff.mp hi
  have hclaim := h.claimed i hstable
  rw [hnetif, ← hipaddr] at hclaim
  have hright : Right For claims Asked (.output netif.num q (t i).ethaddr) :=
    ⟨ipaddr, (t i).ctime, hq, hclaim, (h.entry i).age hstable.ne_empty⟩
  have hone : ∀ out ∈ [EtharpOut.output netif.num q (t i).ethaddr], Right For claims Asked out := fun out hout =>
    List.mem_singleton.mp hout ▸ hright
  rw [etharpOutputToArpIndex]
  dsimp only
  have hrequest : Right For claims Asked (.request netif.num (t i).ipaddr
      (if arpAgeRerequestUsedBroadcast ≤ (t i).ctime then ethbroadcast else (t i).ethaddr)) := by
    split_ifs
    · exact .inl rfl
    · rw [← hipaddr]
      exact .inr ⟨(t i).ctime, hclaim, (h.entry i).age hstable.ne_empty⟩
  generalize (if arpAgeRerequestUsedBroadcast ≤ (t i).ctime then ethbroadcast else (t i).ethaddr) = dst at hrequest ⊢
  split_ifs with hold
  · refine ⟨h.set i ⟨(fun hempty => by cases hempty), fun _ => (h.entry i).stable hstable,
      fun _ => (h.entry i).age hstable.ne_empty, (fun hpending => by cases hpending)⟩ (fun _ => ?_)
      (fun _ => h.claimed i hstable) (h.waits i), List.forall_mem_cons.mpr ⟨hrequest, hone⟩⟩
    exact h.onlyFor ⟨hstable.ne_empty, rfl, rfl⟩
  · exact ⟨h, hone⟩
  · exact ⟨h, hone⟩

/-- A packet to all hosts, or to a group, whose Ethernet address is made from the IP address -/
def Direct (netif : Netif) (ipaddr : BitVec 32) (dst : EthAddr) : Prop :=
  ip4AddrIsbroadcast ipaddr netif = true ∧ dst = ethbroadcast ∨
    ip4AddrIsbroadcast ipaddr netif = false ∧ ip4AddrIsmulticast ipaddr = true ∧ dst = mcastaddr ipaddr

theorem ArpOk.output {s : Etharp α} (h : ArpOk For claims s.arpTable) (needsCopy : α → Bool) {netif : Netif} {q : α}
    {clone : Option α} (requestOk : Bool)
    (hq : ∀ hop, etharpDstAddr netif ipaddr = some hop → For netif.num hop q)
    (hclone : ∀ hop, etharpDstAddr netif ipaddr = some hop → ∀ p ∈ clone, For netif.num hop p) :
    ArpOk For claims (etharpOutput needsCopy s netif q ipaddr requestOk clone).1.arpTable ∧
      ∀ out ∈ (etharpOutput needsCopy s netif q ipaddr requestOk clone).2.1,
        Right For claims Asked out ∨ ∃ dst, out = .output netif.num q dst ∧ Direct netif ipaddr dst := by
  rw [etharpOutput]
  by_cases hbroadcast : ip4AddrIsbroadcast ipaddr netif = true
  · rw [if_pos hbroadcast]
    exact ⟨h, fun out hout => .inr ⟨ethbroadcast, List.mem_singleton.mp hout, .inl ⟨hbroadcast, rfl⟩⟩⟩
  rw [if_neg hbroadcast]
  by_cases hmulticast : ip4AddrIsmulticast ipaddr = true
  · rw [if_pos hmulticast]
    exact ⟨h, fun out hout => .inr ⟨mcastaddr ipaddr, List.mem_singleton.mp hout,
      .inr ⟨Bool.eq_false_of_not_eq_true hbroadcast, hmulticast, rfl⟩⟩⟩
  rw [if_neg hmulticast]
  cases hdst : etharpDstAddr netif ipaddr with
  | none => exact ⟨h, fun out hout => by cases hout⟩
  | some dstAddr =>
    dsimp only
    have hfound : ∀ i, (if (s.arpTable s.etharpCachedEntry).resolves netif.num dstAddr = true then
        some s.etharpCachedEntry
      else (List.finRange arpTableSize).find? fun i => (s.arpTable i).resolves netif.num dstAddr) = some i →
        (s.arpTable i).resolves netif.num dstAddr = true := by
      intro i hi
      split_ifs at hi with hcached
      · obtain rfl := Option.some.inj hi
        exact hcached
      · exact List.find?_some (p := fun i => (s.arpTable i).resolves netif.num dstAddr) hi
    generalize (if (s.arpTable s.etharpCachedEntry).resolves netif.num dstAddr = true then some s.etharpCachedEntry
      else (List.finRange arpTableSize).find? fun i => (s.arpTable i).resolves netif.num dstAddr) = found at hfound ⊢
    cases found with
    | none =>
      refine (h.query needsCopy (q := some q) requestOk (fun p hp => Option.some.inj hp ▸ hq dstAddr hdst)
        (hclone dstAddr hdst)).imp_right fun hright out hout => .inl (hright out hout)
    | some i =>
      refine (h.outputToArpIndex requestOk (hfound i rfl) (hq dstAddr hdst)).imp_right
        fun hright out hout => .inl (hright out hout)

theorem ArpOk.init : ArpOk For claims (Etharp.init : Etharp α).arpTable where
  entry _ := .freed ⟨none, 0#32, 0, ethzero, 0, .empty⟩
  unique i j hi _ := absurd rfl hi
  claimed i hi := by cases hi
  waits i p hp := by cases hp

/-- More packets may be for a host. -/
theorem ArpOk.mono {For' : Nat → BitVec 32 → α → Prop} (hfor : ∀ n a p, For n a p → For' n a p)
    (h : ArpOk For claims t) : ArpOk For' claims t :=
  ⟨h.entry, h.unique, h.claimed, fun i p hp => hfor _ _ _ (h.waits i p hp)⟩

end

end YlsFirmware
