import YlsFirmware.Lib.Run
import YlsFirmware.Theorems.ArpTable

/-! Runs of the ARP table. Every frame goes to the Ethernet address that the next hop has claimed last. -/

namespace YlsFirmware
open Packed Machine

variable {α : Type}

/-- The table after the events -/
def etharpRun (needsCopy : α → Bool) (evs : List (EtharpEvent α)) : Etharp α :=
  run (fun s e => (etharpStep needsCopy s e).1) .init evs

/-- The Ethernet address that an event claims for an address of an interface. -/
def EtharpEvent.claims (n : Nat) (a : BitVec 32) : EtharpEvent α → Option EthAddr
  | .input netif hdr =>
    if (hdr.valid && !(ip4AddrIsany hdr.sipaddr || ip4AddrIsbroadcast hdr.sipaddr netif ||
        ip4AddrIsmulticast hdr.sipaddr)) = true ∧ n = netif.num ∧ a = hdr.sipaddr then some hdr.shwaddr
    else none
  | .tmr | .output _ _ _ _ _ | .query _ _ _ _ _ | .cleanupNetif _ => none

def EtharpEvent.isTmr : EtharpEvent α → Bool
  | .tmr => true
  | .input _ _ | .output _ _ _ _ _ | .query _ _ _ _ _ | .cleanupNetif _ => false

/-- The number of ticks in a run -/
def arpTicks (evs : List (EtharpEvent α)) : Nat := evs.countP EtharpEvent.isTmr

/-- The Ethernet address that was claimed last for an address of an interface, and how many ticks ago -/
def LastClaim (evs : List (EtharpEvent α)) (n : Nat) (a : BitVec 32) (dst : EthAddr) (age : Nat) : Prop :=
  ∃ as e bs, evs = as ++ e :: bs ∧ e.claims n a = some dst ∧ (∀ e' ∈ bs, e'.claims n a = none) ∧ arpTicks bs = age

/-- An event gives a packet for a host: `etharp_output` for the next hop, `etharp_query` for the address itself. -/
def EtharpEvent.Gives (n : Nat) (hop : BitVec 32) (p : α) : EtharpEvent α → Prop
  | .output netif q ipaddr _ clone => netif.num = n ∧ etharpDstAddr netif ipaddr = some hop ∧ (p = q ∨ clone = some p)
  | .query netif ipaddr q _ clone => netif.num = n ∧ ipaddr = hop ∧ (q = some p ∨ clone = some p)
  | .tmr | .input _ _ | .cleanupNetif _ => False

def Given (evs : List (EtharpEvent α)) (n : Nat) (hop : BitVec 32) (p : α) : Prop := ∃ e ∈ evs, e.Gives n hop p

/-- The event is a request for our address, from a host that is to be replied to. -/
def EtharpEvent.Asks (n : Nat) (ipaddr : BitVec 32) (dst : EthAddr) : EtharpEvent α → Prop
  | .input netif hdr => YlsFirmware.Asks netif hdr n ipaddr dst
  | .tmr | .output _ _ _ _ _ | .query _ _ _ _ _ | .cleanupNetif _ => False

/-- What is sent after a run by one more event. A packet goes to the address that its next hop has claimed last, less
    than `ARP_MAXAGE` ticks ago, or it is a broadcast or a multicast. A reply goes to the sender of the request. -/
def Addressed (evs : List (EtharpEvent α)) (e : EtharpEvent α) : EtharpOut α → Prop
  | .output n q dst =>
    (∃ hop age, Given (evs ++ [e]) n hop q ∧ LastClaim (evs ++ [e]) n hop dst age ∧ age < arpMaxage) ∨
      ∃ netif ipaddr requestOk clone, e = .output netif q ipaddr requestOk clone ∧ netif.num = n ∧
        Direct netif ipaddr dst
  | .dequeue n p dst =>
    ∃ hop age, Given (evs ++ [e]) n hop p ∧ LastClaim (evs ++ [e]) n hop dst age ∧ age < arpMaxage
  | .request n ipaddr dst => dst = ethbroadcast ∨ ∃ age, LastClaim (evs ++ [e]) n ipaddr dst age ∧ age < arpMaxage
  | .reply n ipaddr dst => e.Asks n ipaddr dst
  | .queue _ | .free _ => True

/-! ### Claims -/

/-- The claims after a run -/
def claimsOf (evs : List (EtharpEvent α)) : Claims := run Claims.after (fun _ _ => none) evs

theorem Claims.after_eq (claims : Claims) (e : EtharpEvent α) (n : Nat) (a : BitVec 32) :
    claims.after e n a =
      (e.claims n a).elim ((claims n a).map fun c => (c.1, c.2 + arpTicks [e])) fun dst => some (dst, 0) := by
  have hsame : (claims n a).map (fun c => (c.1, c.2 + 0)) = claims n a := Option.map_id_apply
  cases e with
  | tmr => rfl
  | output netif q ipaddr requestOk clone => exact hsame.symm
  | query netif ipaddr q requestOk clone => exact hsame.symm
  | cleanupNetif netif => exact hsame.symm
  | input netif hdr =>
    rw [Claims.after, EtharpEvent.claims]
    by_cases hvalid : (hdr.valid && !(ip4AddrIsany hdr.sipaddr || ip4AddrIsbroadcast hdr.sipaddr netif ||
        ip4AddrIsmulticast hdr.sipaddr)) = true
    · rw [if_pos hvalid, Claims.claim]
      by_cases hfor : n = netif.num ∧ a = hdr.sipaddr
      · rw [if_pos hfor, if_pos ⟨hvalid, hfor⟩]
        rfl
      · rw [if_neg hfor, if_neg (fun h => hfor h.2)]
        exact hsame.symm
    · rw [if_neg hvalid, if_neg (fun h => hvalid h.1)]
      exact hsame.symm

theorem lastClaim_of_claimsOf {evs : List (EtharpEvent α)} {n : Nat} {a : BitVec 32} {dst : EthAddr} {age : Nat}
    (h : claimsOf evs n a = some (dst, age)) : LastClaim evs n a dst age := by
  induction evs using List.reverseRecOn generalizing age with
  | nil => cases h
  | append_singleton evs e ih =>
    rw [claimsOf, run_concat, Claims.after_eq] at h
    cases hclaim : e.claims n a with
    | some d =>
      rw [hclaim] at h
      cases h
      exact ⟨evs, e, [], rfl, hclaim, fun e' he' => absurd he' List.not_mem_nil, rfl⟩
    | none =>
      rw [hclaim] at h
      obtain ⟨⟨d, k⟩, hprev, hnow⟩ := Option.map_eq_some_iff.mp h
      cases hnow
      obtain ⟨as, e₀, bs, rfl, he₀, hbs, rfl⟩ := ih hprev
      refine ⟨as, e₀, bs ++ [e], by rw [List.append_assoc, List.cons_append], he₀, fun e' he' => ?_, ?_⟩
      · rcases List.mem_append.mp he' with he' | he'
        · exact hbs e' he'
        · rw [List.mem_singleton.mp he']
          exact hclaim
      · rw [arpTicks, List.countP_append]
        rfl

/-! ### Steps -/

section
variable {For : Nat → BitVec 32 → α → Prop} {claims : Claims} {Asked : Nat → BitVec 32 → EthAddr → Prop}

theorem Right.of_tmr {t : ArpTable α} (h : ArpOk For claims t) (claims' : Claims) :
    ∀ out ∈ (etharpTmr t).2, Right For claims' Asked out := by
  intro out hout
  obtain ⟨i, -, hi⟩ := List.mem_flatMap.mp hout
  rcases etharpTmrEntry_cases (h.entry i) with ⟨-, heq⟩ | ⟨-, -, heq⟩ | ⟨-, -, heq⟩ | ⟨-, -, s, -, heq⟩ <;>
    rw [heq] at hi
  · cases hi
  · obtain ⟨p, rfl⟩ := mem_frees hi
    exact trivial
  · rw [List.mem_singleton.mp hi]
    exact .inl rfl
  · cases hi

theorem Right.of_cleanupNetif {t : ArpTable α} {netif : Netif} :
    ∀ out ∈ (etharpCleanupNetif t netif).2, Right For claims Asked out := by
  intro out hout
  obtain ⟨i, -, hi⟩ := List.mem_flatMap.mp hout
  split_ifs at hi
  · obtain ⟨p, rfl⟩ := mem_frees hi
    exact trivial
  · cases hi

/-- Every step keeps the invariant. What it sends is right, or is a broadcast or a multicast. -/
theorem ArpOk.step {s : Etharp α} (h : ArpOk For claims s.arpTable) (needsCopy : α → Bool) (e : EtharpEvent α)
    (hgives : ∀ n hop p, e.Gives n hop p → For n hop p) :
    ArpOk For (claims.after e) (etharpStep needsCopy s e).1.arpTable ∧
      ∀ out ∈ (etharpStep needsCopy s e).2, Right For (claims.after e) (fun n a d => e.Asks n a d) out ∨
        ∃ netif q ipaddr requestOk clone dst, e = .output netif q ipaddr requestOk clone ∧
          out = .output netif.num q dst ∧ Direct netif ipaddr dst := by
  cases e with
  | tmr => exact ⟨h.tmr, fun out hout => .inl (Right.of_tmr h _ out hout)⟩
  | input netif hdr => exact (h.input netif hdr).imp_right fun hright out hout => .inl (hright out hout)
  | cleanupNetif netif => exact ⟨h.cleanupNetif netif, fun out hout => .inl (Right.of_cleanupNetif out hout)⟩
  | query netif ipaddr q requestOk clone =>
    exact (h.query needsCopy requestOk (fun p hp => hgives netif.num ipaddr p ⟨rfl, rfl, .inl hp⟩)
      (fun p hp => hgives netif.num ipaddr p ⟨rfl, rfl, .inr hp⟩)).imp_right
        fun hright out hout => .inl (hright out hout)
  | output netif q ipaddr requestOk clone =>
    refine (h.output needsCopy requestOk (fun hop hhop => hgives netif.num hop q ⟨rfl, hhop, .inl rfl⟩)
      (fun hop hhop p hp => hgives netif.num hop p ⟨rfl, hhop, .inr hp⟩)).imp_right
        fun hright out hout => (hright out hout).imp_right ?_
    rintro ⟨dst, rfl, hdirect⟩
    exact ⟨netif, q, ipaddr, requestOk, clone, dst, rfl, rfl, hdirect⟩

end

/-! ### Runs -/

theorem Given.mono {evs evs' : List (EtharpEvent α)} (hsub : evs ⊆ evs') {n : Nat} {hop : BitVec 32} {p : α}
    (h : Given evs n hop p) : Given evs' n hop p := by
  obtain ⟨e, he, hgives⟩ := h
  exact ⟨e, hsub he, hgives⟩

theorem ArpOk.concat {needsCopy : α → Bool} {evs : List (EtharpEvent α)}
    (h : ArpOk (Given evs) (claimsOf evs) (etharpRun needsCopy evs).arpTable) (e : EtharpEvent α) :
    ArpOk (Given (evs ++ [e])) (claimsOf (evs ++ [e])) (etharpRun needsCopy (evs ++ [e])).arpTable ∧
      ∀ out ∈ (etharpStep needsCopy (etharpRun needsCopy evs) e).2,
        Right (Given (evs ++ [e])) (claimsOf (evs ++ [e])) (fun n a d => e.Asks n a d) out ∨
          ∃ netif q ipaddr requestOk clone dst, e = .output netif q ipaddr requestOk clone ∧
            out = .output netif.num q dst ∧ Direct netif ipaddr dst := by
  have hmono := h.mono fun n a p => Given.mono (List.subset_append_left evs [e])
  have hstep := hmono.step needsCopy e fun n hop p hgives =>
    ⟨e, List.mem_append_right evs List.mem_cons_self, hgives⟩
  rw [etharpRun, claimsOf, run_concat, run_concat]
  exact hstep

theorem arpOk_run (needsCopy : α → Bool) (evs : List (EtharpEvent α)) :
    ArpOk (Given evs) (claimsOf evs) (etharpRun needsCopy evs).arpTable := by
  induction evs using List.reverseRecOn with
  | nil => exact .init
  | append_singleton evs e ih => exact (ih.concat e).1

/-- Every frame and every request that is sent in a run is addressed as it has to be. -/
theorem frames_addressed (needsCopy : α → Bool) (evs : List (EtharpEvent α)) (e : EtharpEvent α) :
    ∀ out ∈ (etharpStep needsCopy (etharpRun needsCopy evs) e).2, Addressed evs e out := by
  intro out hout
  rcases ((arpOk_run needsCopy evs).concat e).2 out hout with hright |
    ⟨netif, q, ipaddr, requestOk, clone, dst, he, rfl, hdirect⟩
  · cases out with
    | output n q dst =>
      obtain ⟨hop, age, hgiven, hclaim, hage⟩ := hright
      exact .inl ⟨hop, age, hgiven, lastClaim_of_claimsOf hclaim, hage⟩
    | dequeue n p dst =>
      obtain ⟨hop, age, hgiven, hclaim, hage⟩ := hright
      exact ⟨hop, age, hgiven, lastClaim_of_claimsOf hclaim, hage⟩
    | request n ipaddr dst =>
      refine hright.imp_right ?_
      rintro ⟨age, hclaim, hage⟩
      exact ⟨age, lastClaim_of_claimsOf hclaim, hage⟩
    | queue p => exact trivial
    | free p => exact trivial
    | reply n ipaddr dst => exact hright
  · exact .inr ⟨netif, ipaddr, requestOk, clone, he, rfl, hdirect⟩

/-- The table after the events: an address has one entry at most; a stable one has the Ethernet address that was claimed
    last, and no packet; a packet waits on a pending one, for its next hop. -/
structure TableOk (evs : List (EtharpEvent α)) (t : ArpTable α) : Prop where
  unique : ∀ i j, (t i).state ≠ .empty → (t j).IsFor (t i).ipaddr (t i).netif → i = j
  stable : ∀ i, (t i).Stable → (t i).q = none ∧ (t i).ctime < arpMaxage ∧
    LastClaim evs (t i).netif (t i).ipaddr (t i).ethaddr (t i).ctime
  waits : ∀ i p, (t i).q = some p → (t i).state = .pending ∧ (t i).ctime < arpMaxpending ∧
    Given evs (t i).netif (t i).ipaddr p

theorem tableOk_of_run (needsCopy : α → Bool) (evs : List (EtharpEvent α)) :
    TableOk evs (etharpRun needsCopy evs).arpTable := by
  have h := arpOk_run needsCopy evs
  refine ⟨h.unique, fun i hs => ⟨(h.entry i).stable hs, (h.entry i).age hs.ne_empty,
    lastClaim_of_claimsOf (h.claimed i hs)⟩, fun i p hp => ?_⟩
  have hpending := (h.entry i).pending_of_packet hp
  exact ⟨hpending, (h.entry i).pending hpending, h.waits i p hp⟩

/-- 192.168.1.10 answers a request of 192.168.1.11. -/
def lanReply : EtharpHdr where
  hwtype := lwipHtons lwipIanaHwtypeEthernet
  proto := lwipHtons ethtypeIp
  hwlen := 6#8
  protolen := 4#8
  opcode := lwipHtons arpReply
  shwaddr := (lanNetif 10).hwaddr
  sipaddr := (lanNetif 10).ipAddr
  dhwaddr := (lanNetif 11).hwaddr
  dipaddr := (lanNetif 11).ipAddr

theorem frames_addressed_reply :
    Addressed [.output (lanNetif 11) 7 (lanNetif 10).ipAddr true none, .tmr] (.input (lanNetif 11) lanReply)
      (.dequeue 0 7 [2, 0, 0, 0, 0, 10]) :=
  frames_addressed (fun _ => false) _ _ _ (by decide)

end YlsFirmware
