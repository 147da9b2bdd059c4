import YlsFirmware.Lib.Run
import YlsFirmware.Theorems.Reassembly
import Mathlib.Algebra.Order.Group.Multiset

/-! Runs of the reassembly: what holds between the calls, and where every fragment goes. -/

namespace YlsFirmware
open Packed Pieces Machine

variable {α : Type} {pbufClen : α → Nat} {s : IpReass α} {fraghdr : List Byte} {p : α}

/-- A fragment for `ip4_reass`, or a call of `ip_reass_tmr` -/
inductive ReassEvent (α : Type) where
  | input (fraghdr : List Byte) (p : α)
  | tmr

/-- A fragment that arrives, with its header -/
def arrival (f : List Byte × α) : ReassEvent α := .input f.1 f.2

def reassStep (pbufClen : α → Nat) (s : IpReass α) :
    ReassEvent α → IpReass α × List (IpReassOut α) × Option (IpReassdata α)
  | .input fraghdr p => ip4Reass pbufClen s fraghdr p
  | .tmr => ((ipReassTmr pbufClen s).1, (ipReassTmr pbufClen s).2, none)

/-- The state after the events, from a state on -/
def reassFrom (pbufClen : α → Nat) (s : IpReass α) (evs : List (ReassEvent α)) : IpReass α :=
  run (fun s e => (reassStep pbufClen s e).1) s evs

/-- The state after the events -/
def reassRun (pbufClen : α → Nat) (evs : List (ReassEvent α)) : IpReass α := reassFrom pbufClen ⟨[], 0⟩ evs

/-! ### The datagram of a fragment among the others -/

section Finds
variable {l as bs : List (IpReassdata α)} {old : IpReassdata α}

theorem Finds.isOf (h : Finds fraghdr l as old bs) : old.IsOf fraghdr := by
  cases h with
  | known hr => exact withHeader_ipKey hr
  | fresh hl hlength => rfl

theorem Finds.sublist (h : Finds fraghdr l as old bs) : (as ++ bs).Sublist l := by
  cases h with
  | known hr => exact (List.sublist_cons_self _ _).append_left _
  | fresh hl hlength => exact List.Sublist.refl _

theorem Finds.length (h : Finds fraghdr l as old bs) (hl : l.length ≤ mempNumReassdata) :
    (as ++ old :: bs).length ≤ mempNumReassdata := by
  cases h with
  | known hr =>
    rw [List.length_append, List.length_cons] at hl ⊢
    exact hl
  | fresh hnot hlength => exact hlength

theorem Finds.keys (h : Finds fraghdr l as old bs) (hl : (l.map fun r => ipKey r.iphdr).Nodup) :
    ((as ++ old :: bs).map fun r => ipKey r.iphdr).Nodup := by
  cases h with
  | @known as bs r hr =>
    rw [List.map_append, List.map_cons] at hl ⊢
    rw [withHeader_ipKey hr, ← hr]
    exact hl
  | fresh hnot hlength =>
    refine List.nodup_cons.mpr ⟨fun hmem => ?_, hl⟩
    obtain ⟨r, hr, hkey⟩ := List.mem_map.mp hmem
    exact hnot r hr hkey

end Finds

/-! ### What holds between the calls -/

theorem reassOk_init : ReassOk pbufClen ⟨[], 0⟩ :=
  ⟨rfl, Nat.zero_le _, Nat.zero_le _, List.nodup_nil, fun _ h => absurd h List.not_mem_nil,
    fun _ h => absurd h List.not_mem_nil, fun _ h => absurd h List.not_mem_nil⟩

theorem ReassOk.removed {s' : IpReass α} {rs : List (IpReassdata α)} (hok : ReassOk pbufClen s)
    (h : Removed pbufClen fraghdr s s' rs) : ReassOk pbufClen s' where
  count := h.count
  room := by
    have hle := h.pbufcount_eq hok.count
    have hroom := hok.room
    omega
  length := Nat.le_trans h.sublist.length_le hok.length
  keys := (h.sublist.map _).nodup hok.keys
  nonempty r hr := hok.nonempty r (h.sublist.subset hr)
  fragments r hr := hok.fragments r (h.sublist.subset hr)
  opened r hr := hok.opened r (h.sublist.subset hr)

theorem withHeader_complete {r : IpReassdata α} : (r.withHeader fraghdr).Complete ↔ r.Complete := by
  rw [IpReassdata.Complete, withHeader_lastfrag, withHeader_p, IpReassdata.Complete]

/-- The datagram of a fragment changes, and the others stay. -/
theorem ReassOk.replace {as bs : List (IpReassdata α)} {old new : IpReassdata α} {c : Nat} (hok : ReassOk pbufClen s)
    (hfinds : Finds fraghdr s.reassdatagrams as old bs) (hcount : c = pbufsOf pbufClen (as ++ new :: bs))
    (hroom : c ≤ ipReassMaxPbufs) (hkey : new.iphdr = old.iphdr) (hnonempty : new.p ≠ [])
    (hfragments : FragmentsOk new.p) (hopen : ¬new.Complete) : ReassOk pbufClen ⟨as ++ new :: bs, c⟩ where
  count := hcount
  room := hroom
  length := by
    have hlength := hfinds.length hok.length
    rw [List.length_append, List.length_cons] at hlength ⊢
    exact hlength
  keys := by
    have hkeys := hfinds.keys hok.keys
    rw [List.map_append, List.map_cons] at hkeys ⊢
    rw [hkey]
    exact hkeys
  nonempty x hx := (mem_split hx).elim (· ▸ hnonempty) fun hx => hok.nonempty x (hfinds.sublist.subset hx)
  fragments x hx := (mem_split hx).elim (· ▸ hfragments) fun hx => hok.fragments x (hfinds.sublist.subset hx)
  opened x hx := (mem_split hx).elim (· ▸ hopen) fun hx => hok.opened x (hfinds.sublist.subset hx)

theorem ReassOk.outcome {s' : IpReass α} {outs : List (IpReassOut α)} {res : Option (IpReassdata α)}
    (hok : ReassOk pbufClen s) (hcount : s'.pbufcount = pbufsOf pbufClen s'.reassdatagrams)
    (hroom : s'.pbufcount ≤ ipReassMaxPbufs)
    (h : Outcome pbufClen fraghdr p s.reassdatagrams s'.reassdatagrams outs res) : ReassOk pbufClen s' := by
  obtain ⟨l', c'⟩ := s'
  dsimp only at hcount hroom h
  cases h with
  | dropped h => exact ⟨hcount, hroom, hok.length, hok.keys, hok.nonempty, hok.fragments, hok.opened⟩
  | @rewritten as bs r hlist hr h =>
    have hmem : r ∈ s.reassdatagrams := hlist ▸ List.mem_append_right _ List.mem_cons_self
    have hfinds : Finds fraghdr s.reassdatagrams as (r.withHeader fraghdr) bs := hlist ▸ .known hr
    refine hok.replace hfinds hcount hroom rfl ?_ ?_ (mt withHeader_complete.mp (hok.opened r hmem))
    · rw [withHeader_p]
      exact hok.nonempty r hmem
    · rw [withHeader_p]
      exact hok.fragments r hmem
  | queued hfinds hsplit hfragments hopen =>
    exact hok.replace hfinds hcount hroom rfl (List.append_ne_nil_of_right_ne_nil _ (List.cons_ne_nil _ _)) hfragments
      hopen
  | finished hfinds hsplit hfragments hcomplete =>
    exact ⟨hcount, hroom, Nat.le_trans hfinds.sublist.length_le hok.length, (hfinds.sublist.map _).nodup hok.keys,
      fun x hx => hok.nonempty x (hfinds.sublist.subset hx), fun x hx => hok.fragments x (hfinds.sublist.subset hx),
      fun x hx => hok.opened x (hfinds.sublist.subset hx)⟩

/-! ### The timer -/

/-- The datagrams that `ip_reass_tmr` keeps, one second older -/
def ticked (l : List (IpReassdata α)) : List (IpReassdata α) :=
  (l.filter fun r => r.timer != 0).map fun r => { r with timer := r.timer - 1 }

/-- The datagrams that `ip_reass_tmr` frees -/
def expired (l : List (IpReassdata α)) : List (IpReassdata α) := l.filter fun r => r.timer == 0

theorem expired_perm (l : List (IpReassdata α)) : (expired l ++ l.filter fun r => r.timer != 0).Perm l :=
  List.filter_append_perm (fun r : IpReassdata α => r.timer == 0) l

theorem pbufsOf_ticked (l : List (IpReassdata α)) :
    pbufsOf pbufClen (ticked l) = pbufsOf pbufClen (l.filter fun r => r.timer != 0) := by
  rw [pbufsOf, ticked, List.map_map]
  rfl

theorem foldl_freed (rs : List (IpReassdata α)) (c : Nat) (h : pbufsOf pbufClen rs ≤ c) (hc : c < 2 ^ 16) :
    rs.foldl (fun c r => (2 ^ 16 + c - r.clen pbufClen % 2 ^ 16) % 2 ^ 16) c = c - pbufsOf pbufClen rs := by
  induction rs generalizing c with
  | nil => rfl
  | cons r rs ih =>
    rw [pbufsOf_cons] at h ⊢
    rw [List.foldl_cons, Nat.mod_eq_of_lt (by omega : r.clen pbufClen < 2 ^ 16),
      show (2 ^ 16 + c - r.clen pbufClen) % 2 ^ 16 = c - r.clen pbufClen by omega, ih _ (by omega) (by omega)]
    omega

/-- The timer frees the datagrams that have expired. -/
theorem ipReassTmr_spec (hcount : s.pbufcount = pbufsOf pbufClen s.reassdatagrams) (hmax : s.pbufcount < 2 ^ 16) :
    ipReassTmr pbufClen s =
        (⟨ticked s.reassdatagrams, pbufsOf pbufClen (ticked s.reassdatagrams)⟩,
          (expired s.reassdatagrams).flatMap IpReassdata.frees) ∧
      pbufsOf pbufClen (ticked s.reassdatagrams) ≤ s.pbufcount := by
  have hsum : s.pbufcount =
      pbufsOf pbufClen (expired s.reassdatagrams) + pbufsOf pbufClen (ticked s.reassdatagrams) := by
    rw [hcount, pbufsOf_ticked, ← pbufsOf_append, pbufsOf_perm (expired_perm _)]
  constructor
  · have hfreed := @foldl_freed α pbufClen (expired s.reassdatagrams) s.pbufcount (by omega) hmax
    rw [ipReassTmr, ← expired, hfreed, ← ticked, hsum, Nat.add_sub_cancel_left]
  · omega

theorem mem_ticked {l : List (IpReassdata α)} {x : IpReassdata α} (h : x ∈ ticked l) :
    ∃ r ∈ l, x = { r with timer := r.timer - 1 } := by
  obtain ⟨r, hr, rfl⟩ := List.mem_map.mp h
  exact ⟨r, (List.mem_filter.mp hr).1, rfl⟩

theorem ReassOk.tmr (hok : ReassOk pbufClen s) : ReassOk pbufClen (ipReassTmr pbufClen s).1 := by
  obtain ⟨heq, hle⟩ := ipReassTmr_spec hok.count (Nat.lt_of_le_of_lt hok.room (by decide))
  rw [heq]
  refine ⟨rfl, Nat.le_trans hle hok.room, ?_, ?_, fun x hx => ?_, fun x hx => ?_, fun x hx => ?_⟩
  · dsimp only
    rw [ticked, List.length_map]
    exact Nat.le_trans (List.length_filter_le _ _) hok.length
  · dsimp only
    rw [ticked, List.map_map]
    exact ((List.filter_sublist).map _).nodup hok.keys
  · obtain ⟨r, hr, rfl⟩ := mem_ticked hx
    exact hok.nonempty r hr
  · obtain ⟨r, hr, rfl⟩ := mem_ticked hx
    exact hok.fragments r hr
  · obtain ⟨r, hr, rfl⟩ := mem_ticked hx
    exact hok.opened r hr

theorem ReassOk.step (hpos : ∀ p, 0 < pbufClen p) (hok : ReassOk pbufClen s) (e : ReassEvent α) :
    ReassOk pbufClen (reassStep pbufClen s e).1 := by
  cases e with
  | input fraghdr p =>
    obtain ⟨rs, s₁, s', outs, res, heq, hremoved, hcount, hroom, hout⟩ := ip4Reass_cases hpos hok fraghdr p
    rw [reassStep, heq]
    exact (hok.removed hremoved).outcome hcount hroom hout
  | tmr => exact hok.tmr

theorem ReassOk.reassFrom (hpos : ∀ p, 0 < pbufClen p) (hok : ReassOk pbufClen s) (evs : List (ReassEvent α)) :
    ReassOk pbufClen (reassFrom pbufClen s evs) :=
  run_invariant (fun _ e h => h.step hpos e) hok evs

/-- After any calls: at most `IP_REASS_MAX_PBUFS` pbufs in at most `MEMP_NUM_REASSDATA` datagrams with different keys,
    and each of them lacks a fragment. -/
theorem reassOk_run (hpos : ∀ p, 0 < pbufClen p) (evs : List (ReassEvent α)) :
    ReassOk pbufClen (reassRun pbufClen evs) :=
  reassOk_init.reassFrom hpos evs

/-! ### Where the fragments go -/

/-- A chain that is freed -/
def IpReassOut.free? : IpReassOut α → Option α
  | .free p => some p
  | .timeExceeded _ _ => none

/-- The chains that are freed -/
def freed (outs : List (IpReassOut α)) : Multiset α := ↑(outs.filterMap IpReassOut.free?)

/-- The chains of a datagram -/
def IpReassdata.chains (r : IpReassdata α) : Multiset α := ↑(r.p.map IpReassHelper.p)

/-- The chains of some datagrams -/
def chainsOf (rs : List (IpReassdata α)) : Multiset α := (rs.map IpReassdata.chains).sum

/-- The chain that is given to `ip4_reass` -/
def ReassEvent.given : ReassEvent α → Multiset α
  | .input _ p => {p}
  | .tmr => 0

theorem freed_append (as bs : List (IpReassOut α)) : freed (as ++ bs) = freed as + freed bs := by
  rw [freed, List.filterMap_append, ← Multiset.coe_add]
  rfl

theorem chainsOf_append (as bs : List (IpReassdata α)) : chainsOf (as ++ bs) = chainsOf as + chainsOf bs := by
  rw [chainsOf, List.map_append, List.sum_append]
  rfl

theorem chainsOf_split {as bs : List (IpReassdata α)} {r : IpReassdata α} :
    chainsOf (as ++ r :: bs) = r.chains + chainsOf (as ++ bs) := by
  rw [chainsOf, List.map_append, List.map_cons, List.sum_append, List.sum_cons, chainsOf_append, chainsOf, chainsOf]
  ac_rfl

theorem chainsOf_perm {as bs : List (IpReassdata α)} (h : as.Perm bs) : chainsOf as = chainsOf bs := (h.map _).sum_eq

theorem freed_frees (r : IpReassdata α) : freed r.frees = r.chains := by
  have hall : freed (r.p.map fun h => IpReassOut.free h.p) = r.chains := by
    rw [freed, List.filterMap_map, IpReassdata.chains, ← List.filterMap_eq_map]
    rfl
  rw [IpReassdata.frees, freed_append, hall]
  refine (congrArg (· + r.chains) ?_).trans (zero_add _)
  split
  · split_ifs <;> rfl
  · rfl

theorem freed_flatMap (rs : List (IpReassdata α)) : freed (rs.flatMap IpReassdata.frees) = chainsOf rs := by
  induction rs with
  | nil => rfl
  | cons r rs ih =>
    rw [List.flatMap_cons, freed_append, freed_frees, ih]
    exact List.sum_cons.symm

theorem chains_withFragment {r : IpReassdata α} {ls rs : List (IpReassHelper α)} (h : r.p = ls ++ rs) :
    (r.withFragment fraghdr (ls ++ fragment fraghdr p :: rs)).chains = {p} + r.chains := by
  rw [IpReassdata.chains, Multiset.coe_eq_coe.mpr ((withFragment_perm h).map _), List.map_cons, ← Multiset.cons_coe,
    ← Multiset.singleton_add]
  rfl

theorem Finds.chains {l as bs : List (IpReassdata α)} {old : IpReassdata α} (h : Finds fraghdr l as old bs) :
    chainsOf l = old.chains + chainsOf (as ++ bs) := by
  cases h with
  | known hr =>
    rw [chainsOf_split, IpReassdata.chains, IpReassdata.chains, withHeader_p]
  | fresh hnot hlength => exact (zero_add _).symm

theorem Outcome.chains {l l' : List (IpReassdata α)} {outs : List (IpReassOut α)} {res : Option (IpReassdata α)}
    (h : Outcome pbufClen fraghdr p l l' outs res) :
    chainsOf l + {p} = freed outs + chainsOf res.toList + chainsOf l' := by
  cases h with
  | dropped h =>
    rw [add_comm]
    rfl
  | @rewritten as bs r hlist hr h =>
    have hsame : (r.withHeader fraghdr).chains = r.chains := by
      rw [IpReassdata.chains, withHeader_p, IpReassdata.chains]
    rw [chainsOf_split, hsame, hlist, chainsOf_split, add_comm]
    rfl
  | queued hfinds hsplit hok hopen =>
    rw [chainsOf_split, chains_withFragment hsplit, hfinds.chains]
    show _ = 0 + 0 + _
    rw [zero_add, zero_add]
    ac_rfl
  | finished hfinds hsplit hok hcomplete =>
    have hone : ∀ r : IpReassdata α, chainsOf [r] = r.chains := fun r => add_zero _
    rw [Option.toList_some, hone, chains_withFragment hsplit, hfinds.chains]
    show _ = 0 + _ + _
    rw [zero_add]
    ac_rfl

/-- A call frees each chain once, hands it over once, or keeps it. -/
theorem chains_step (hpos : ∀ p, 0 < pbufClen p) (hok : ReassOk pbufClen s) (e : ReassEvent α) :
    chainsOf s.reassdatagrams + e.given = freed (reassStep pbufClen s e).2.1 +
      chainsOf (reassStep pbufClen s e).2.2.toList + chainsOf (reassStep pbufClen s e).1.reassdatagrams := by
  cases e with
  | input fraghdr p =>
    obtain ⟨rs, s₁, s', outs, res, heq, hremoved, -, -, hout⟩ := ip4Reass_cases hpos hok fraghdr p
    rw [reassStep, heq, ReassEvent.given, chainsOf_perm hremoved.perm, chainsOf_append, add_assoc, hout.chains,
      freed_append, freed_flatMap]
    ac_rfl
  | tmr =>
    obtain ⟨heq, -⟩ := ipReassTmr_spec hok.count (Nat.lt_of_le_of_lt hok.room (by decide))
    have hticked : chainsOf (ticked s.reassdatagrams) = chainsOf (s.reassdatagrams.filter fun r => r.timer != 0) := by
      rw [chainsOf, ticked, List.map_map]
      rfl
    rw [reassStep, heq, ReassEvent.given, add_zero, freed_flatMap, hticked]
    show _ = _ + 0 + _
    rw [add_zero, ← chainsOf_append, chainsOf_perm (expired_perm _)]

/-- What the calls free -/
def reassOuts (pbufClen : α → Nat) (s : IpReass α) (evs : List (ReassEvent α)) : List (IpReassOut α) :=
  record (fun s e => (reassStep pbufClen s e).1) (fun outs s e => outs ++ (reassStep pbufClen s e).2.1) s [] evs

/-- The datagrams that the calls hand over -/
def reassembled (pbufClen : α → Nat) (s : IpReass α) (evs : List (ReassEvent α)) : List (IpReassdata α) :=
  record (fun s e => (reassStep pbufClen s e).1) (fun rs s e => rs ++ (reassStep pbufClen s e).2.2.toList) s [] evs

/-- The chains that are given to `ip4_reass` -/
def givenIn (evs : List (ReassEvent α)) : Multiset α := (evs.map ReassEvent.given).sum

theorem reassFrom_concat (s : IpReass α) (evs : List (ReassEvent α)) (e : ReassEvent α) :
    reassFrom pbufClen s (evs ++ [e]) = (reassStep pbufClen (reassFrom pbufClen s evs) e).1 := run_concat _ s evs e

theorem reassOuts_concat (s : IpReass α) (evs : List (ReassEvent α)) (e : ReassEvent α) :
    reassOuts pbufClen s (evs ++ [e]) =
      reassOuts pbufClen s evs ++ (reassStep pbufClen (reassFrom pbufClen s evs) e).2.1 :=
  record_concat _ _ s [] evs e

theorem reassembled_concat (s : IpReass α) (evs : List (ReassEvent α)) (e : ReassEvent α) :
    reassembled pbufClen s (evs ++ [e]) =
      reassembled pbufClen s evs ++ (reassStep pbufClen (reassFrom pbufClen s evs) e).2.2.toList :=
  record_concat _ _ s [] evs e

theorem chains_from (hpos : ∀ p, 0 < pbufClen p) (hok : ReassOk pbufClen s) (evs : List (ReassEvent α)) :
    chainsOf s.reassdatagrams + givenIn evs = freed (reassOuts pbufClen s evs) +
      chainsOf (reassembled pbufClen s evs) + chainsOf (reassFrom pbufClen s evs).reassdatagrams := by
  induction evs using List.reverseRecOn with
  | nil =>
    show _ + 0 = 0 + 0 + _
    rw [add_zero, add_zero, zero_add]
    rfl
  | append_singleton evs e ih =>
    have hstep := chains_step hpos (hok.reassFrom hpos evs) e
    have hgiven : givenIn (evs ++ [e]) = givenIn evs + e.given := by
      rw [givenIn, List.map_append, List.sum_append, List.map_singleton, List.sum_singleton]
      rfl
    rw [hgiven, ← add_assoc, ih, reassOuts_concat, reassembled_concat, reassFrom_concat, freed_append, chainsOf_append,
      add_assoc, hstep]
    ac_rfl

/-- Every fragment is freed, handed over with its datagram or kept: exactly one of them, once. -/
theorem fragments_conserved (hpos : ∀ p, 0 < pbufClen p) (evs evs' : List (ReassEvent α)) :
    chainsOf (reassRun pbufClen evs).reassdatagrams + givenIn evs' =
      freed (reassOuts pbufClen (reassRun pbufClen evs) evs') +
        chainsOf (reassembled pbufClen (reassRun pbufClen evs) evs') +
        chainsOf (reassRun pbufClen (evs ++ evs')).reassdatagrams := by
  have hrun : reassRun pbufClen (evs ++ evs') = reassFrom pbufClen (reassRun pbufClen evs) evs' :=
    run_append _ _ evs evs'
  rw [hrun]
  exact chains_from hpos (reassOk_run hpos evs) evs'

/-- The header of a fragment from 192.168.1.10 to 192.168.1.11 -/
def lanHeader (len id off₁ off₀ : Byte) : List Byte :=
  [0x45#8, 0#8, 0#8, len, 0#8, id, off₁, off₀, 255#8, 17#8, 0#8, 0#8, 192#8, 168#8, 1#8, 10#8, 192#8, 168#8, 1#8, 11#8]

def lanData : List Byte := [1#8, 2#8, 3#8, 4#8, 5#8, 6#8, 7#8, 8#8, 9#8, 10#8, 11#8, 12#8]

/-- Twelve bytes in two fragments -/
def lanFragments : List (List Byte × List Byte) :=
  [(lanHeader 28#8 1#8 0x20#8 0#8, lanData.take 8), (lanHeader 24#8 1#8 0#8 1#8, lanData.drop 8)]

theorem fragments_conserved_lan :
    chainsOf (reassRun (fun _ => 1) [arrival lanFragments[1]]).reassdatagrams +
        givenIn [.tmr, arrival lanFragments[0]] =
      freed (reassOuts (fun _ => 1) (reassRun (fun _ => 1) [arrival lanFragments[1]])
          [.tmr, arrival lanFragments[0]]) +
        chainsOf (reassembled (fun _ => 1) (reassRun (fun _ => 1) [arrival lanFragments[1]])
          [.tmr, arrival lanFragments[0]]) +
        chainsOf (reassRun (fun _ => 1)
          ([arrival lanFragments[1]] ++ [.tmr, arrival lanFragments[0]])).reassdatagrams :=
  fragments_conserved (fun _ => Nat.one_pos) [arrival lanFragments[1]] [.tmr, arrival lanFragments[0]]

/-! ### What is dropped -/

/-- The fragment is in its datagram, which is in the list or handed over. -/
def Taken (fraghdr : List Byte) (p : α) (l : List (IpReassdata α)) (res : Option (IpReassdata α)) : Prop :=
  ∃ r, (r ∈ l ∨ res = some r) ∧ r.IsOf fraghdr ∧ fragment fraghdr p ∈ r.p

theorem Outcome.taken_or_refused {l l' : List (IpReassdata α)} {outs : List (IpReassOut α)}
    {res : Option (IpReassdata α)} (h : Outcome pbufClen fraghdr p l l' outs res) :
    Taken fraghdr p l' res ∨ Refused pbufClen fraghdr p l := by
  cases h with
  | dropped h => exact .inr h
  | rewritten hlist hr h => exact .inr h
  | queued hfinds hsplit hok hopen =>
    exact .inl ⟨_, .inl (List.mem_append_right _ List.mem_cons_self), hfinds.isOf,
      List.mem_append_right _ List.mem_cons_self⟩
  | finished hfinds hsplit hok hcomplete =>
    exact .inl ⟨_, .inr rfl, hfinds.isOf, List.mem_append_right _ List.mem_cons_self⟩

/-- A fragment is dropped for its header or for its own datagram only, never for the room that other datagrams take. -/
theorem taken_of_not_refused (hpos : ∀ p, 0 < pbufClen p) (evs : List (ReassEvent α))
    (h : ¬Refused pbufClen fraghdr p (reassRun pbufClen evs).reassdatagrams) :
    Taken fraghdr p (ip4Reass pbufClen (reassRun pbufClen evs) fraghdr p).1.reassdatagrams
      (ip4Reass pbufClen (reassRun pbufClen evs) fraghdr p).2.2 := by
  obtain ⟨rs, s₁, s', outs, res, heq, hremoved, -, -, hout⟩ := ip4Reass_cases hpos (reassOk_run hpos evs) fraghdr p
  rw [heq]
  exact hout.taken_or_refused.resolve_right fun hrefused => h (hrefused.of_removed hremoved)

theorem taken_of_not_refused_lan :
    Taken lanFragments[0].1 lanFragments[0].2
      (ip4Reass (fun _ => 1) (reassRun (fun _ => 1) [arrival lanFragments[1]]) lanFragments[0].1
        lanFragments[0].2).1.reassdatagrams
      (ip4Reass (fun _ => 1) (reassRun (fun _ => 1) [arrival lanFragments[1]]) lanFragments[0].1
        lanFragments[0].2).2.2 := by
  refine taken_of_not_refused (fun _ => Nat.one_pos) _ fun hrefused => ?_
  have hlist : (reassRun (fun _ => 1) [arrival lanFragments[1]]).reassdatagrams =
      [⟨[⟨lanData.drop 8, 8, 12⟩], lanHeader 24#8 1#8 0#8 1#8, 12, true, 15⟩] := rfl
  rw [hlist] at hrefused
  cases hrefused with
  | header h => exact absurd h (by decide)
  | room h => exact absurd h (by decide)
  | tooLong h => exact absurd h (by decide)
  | overlap hr hof hq h =>
    obtain rfl := List.mem_singleton.mp hr
    obtain rfl := List.mem_singleton.mp hq
    exact absurd h (by unfold Overlap; decide)

end YlsFirmware
