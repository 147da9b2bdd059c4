import YlsFirmware.Udp
import Mathlib.Data.List.Nodup
import Mathlib.Logic.Relation
import Mathlib.Tactic.SplitIfs

/-! The list of UDP PCBs over all calls: no two of them share a local address, so a datagram to one host has at most one
PCB, wherever that stands in the list. -/

namespace YlsFirmware
open Packed

/-! ### Ports -/

/-- The number of a port in the range. -/
def portIndex (port : BitVec 16) : Nat := port.toNat - udpLocalPortRangeStart

theorem nextUdpPort_range {port : BitVec 16} (h : udpLocalPortRangeStart ≤ port.toNat) :
    udpLocalPortRangeStart ≤ (nextUdpPort port).toNat ∧ portIndex (nextUdpPort port) = (portIndex port + 1) % 0x4000 := by
  have hlt := port.isLt
  rw [nextUdpPort, portIndex, portIndex]
  split_ifs with hend
  · rw [hend]
    exact ⟨by decide, by decide⟩
  · have hne : port.toNat ≠ 0xffff := fun heq => hend (BitVec.eq_of_toNat_eq heq)
    have hsucc : (port + 1#16).toNat = port.toNat + 1 := by
      rw [BitVec.toNat_add]
      exact Nat.mod_eq_of_lt (by simp; omega)
    rw [udpLocalPortRangeStart] at h ⊢
    omega

/-- The loop gives the first of the next `n` ports that no PCB uses, or 0. -/
theorem udpNewPortLoop_spec (pcbs : List UdpPcb) {n : Nat} {port : BitVec 16}
    (h : udpLocalPortRangeStart ≤ port.toNat) :
    udpLocalPortRangeStart ≤ (udpNewPortLoop pcbs n port).1.toNat ∧
      ((udpNewPortLoop pcbs n port).2 = 0#16 ∧
          (∀ k < n, ∃ pcb ∈ pcbs, udpLocalPortRangeStart ≤ pcb.localPort.toNat ∧
            portIndex pcb.localPort = (portIndex port + (k + 1)) % 0x4000) ∨
        (udpNewPortLoop pcbs n port).2 = (udpNewPortLoop pcbs n port).1 ∧
          ∀ pcb ∈ pcbs, pcb.localPort ≠ (udpNewPortLoop pcbs n port).2) := by
  induction n generalizing port with
  | zero => exact ⟨h, .inl ⟨rfl, fun k hk => absurd hk (Nat.not_lt_zero k)⟩⟩
  | succ n ih =>
    obtain ⟨hrange, hindex⟩ := nextUdpPort_range h
    rw [udpNewPortLoop]
    generalize nextUdpPort port = next at hrange hindex
    by_cases hused : (pcbs.any fun pcb => pcb.localPort == next) = true
    · rw [if_pos hused]
      obtain ⟨pcb, hmem, hpcb⟩ := List.any_eq_true.mp hused
      obtain rfl := beq_iff_eq.mp hpcb
      have hloop : (if n = 0 then (pcb.localPort, 0#16) else udpNewPortLoop pcbs n pcb.localPort) =
          udpNewPortLoop pcbs n pcb.localPort := by
        split_ifs with hzero
        · rw [hzero]
          rfl
        · rfl
      rw [hloop]
      obtain ⟨hlast, hspec⟩ := ih hrange
      refine ⟨hlast, hspec.imp_left fun hall => ⟨hall.1, fun k hk => ?_⟩⟩
      cases k with
      | zero => exact ⟨pcb, hmem, hrange, hindex⟩
      | succ k =>
        obtain ⟨q, hq, hqrange, hqindex⟩ := hall.2 k (by omega)
        refine ⟨q, hq, hqrange, ?_⟩
        rw [hqindex, hindex]
        omega
    · rw [if_neg hused]
      refine ⟨hrange, .inr ⟨rfl, fun pcb hmem hport => hused ?_⟩⟩
      exact List.any_eq_true.mpr ⟨pcb, hmem, beq_iff_eq.mpr hport⟩

theorem udpNewPort_range (pcbs : List UdpPcb) {port : BitVec 16} (h : udpLocalPortRangeStart ≤ port.toNat) :
    udpLocalPortRangeStart ≤ (udpNewPort pcbs port).1.toNat := (udpNewPortLoop_spec pcbs h).1

/-- A new port is one of the range that no PCB uses. -/
theorem udpNewPort_unused (pcbs : List UdpPcb) {port : BitVec 16} (h : udpLocalPortRangeStart ≤ port.toNat)
    (hport : (udpNewPort pcbs port).2 ≠ 0#16) :
    udpLocalPortRangeStart ≤ (udpNewPort pcbs port).2.toNat ∧
      ∀ pcb ∈ pcbs, pcb.localPort ≠ (udpNewPort pcbs port).2 := by
  obtain ⟨hrange, ⟨hzero, -⟩ | ⟨hsame, hunused⟩⟩ :=
    @udpNewPortLoop_spec pcbs (udpLocalPortRangeEnd - udpLocalPortRangeStart + 1) port h
  · exact absurd hzero hport
  · rw [← hsame] at hrange
    exact ⟨hrange, hunused⟩

/-- There is a new port unless PCBs use the whole range. -/
theorem udpNewPort_eq_zero_iff (pcbs : List UdpPcb) {port : BitVec 16} (h : udpLocalPortRangeStart ≤ port.toNat) :
    (udpNewPort pcbs port).2 = 0#16 ↔
      ∀ p : BitVec 16, udpLocalPortRangeStart ≤ p.toNat → ∃ pcb ∈ pcbs, pcb.localPort = p := by
  constructor
  · intro hzero p hp
    obtain ⟨hrange, ⟨-, hall⟩ | ⟨hsame, -⟩⟩ :=
      @udpNewPortLoop_spec pcbs (udpLocalPortRangeEnd - udpLocalPortRangeStart + 1) port h
    · have hlt := p.isLt
      have hlt' := port.isLt
      rw [udpLocalPortRangeStart] at h hp
      obtain ⟨pcb, hmem, hrange, hindex⟩ := hall ((portIndex p + 0x4000 - portIndex port + 0x3fff) % 0x4000)
        (Nat.mod_lt _ (by decide))
      refine ⟨pcb, hmem, BitVec.eq_of_toNat_eq ?_⟩
      have hlt'' := pcb.localPort.isLt
      rw [portIndex, portIndex, portIndex, udpLocalPortRangeStart] at hindex
      rw [udpLocalPortRangeStart] at hrange
      omega
    · rw [udpNewPort] at hzero
      rw [← hsame, hzero] at hrange
      exact absurd hrange (by decide)
  · intro hall
    by_contra hne
    obtain ⟨hrange, hunused⟩ := udpNewPort_unused pcbs h hne
    obtain ⟨pcb, hmem, hpcb⟩ := hall _ hrange
    exact hunused pcb hmem hpcb

/-- PCBs that use the next two ports -/
theorem udpNewPort_eq_zero_iff_taken :
    (udpNewPort [{ udpNew 1 with localPort := 0xc002#16 }, { udpNew 2 with localPort := 0xc001#16 }] 0xc000#16).2 ≠
      0#16 := fun h => by
  obtain ⟨pcb, hmem, hport⟩ := (udpNewPort_eq_zero_iff _ (by decide)).mp h 0xc003#16 (by decide)
  rcases List.mem_pair.mp hmem with rfl | rfl <;> cases hport

/-! ### The list -/

/-- Two PCBs do not share a local address. -/
def Apart (p q : UdpPcb) : Prop :=
  p.localPort = q.localPort → p.localIp ≠ q.localIp ∧ ip4AddrIsany p.localIp = false ∧ ip4AddrIsany q.localIp = false

theorem Apart.symm {p q : UdpPcb} (h : Apart p q) : Apart q p := fun hport =>
  ⟨(h hport.symm).1.symm, (h hport.symm).2.2, (h hport.symm).2.1⟩

/-- What holds of the list between two calls. -/
structure PcbsOk (s : UdpState) : Prop where
  nodup : (s.udpPcbs.map UdpPcb.pcb).Nodup
  apart : ∀ p ∈ s.udpPcbs, ∀ q ∈ s.udpPcbs, p.pcb ≠ q.pcb → Apart p q
  port : udpLocalPortRangeStart ≤ s.udpPort.toNat

theorem PcbsOk.eq_of_pcb {s : UdpState} (h : PcbsOk s) {p q : UdpPcb} (hp : p ∈ s.udpPcbs) (hq : q ∈ s.udpPcbs)
    (heq : p.pcb = q.pcb) : p = q :=
  List.inj_on_of_nodup_map h.nodup hp hq heq

theorem PcbsOk.initial {s : UdpState} (h : s.Initial) : PcbsOk s := by
  obtain ⟨hnil, hport⟩ := h
  refine ⟨?_, ?_, hport⟩
  · rw [hnil]
    exact List.nodup_nil
  · rw [hnil]
    exact fun p hp => absurd hp List.not_mem_nil

theorem PcbsOk.of_port {s : UdpState} (h : PcbsOk s) {port : BitVec 16} (hport : udpLocalPortRangeStart ≤ port.toNat) :
    PcbsOk { s with udpPort := port } :=
  ⟨h.nodup, h.apart, hport⟩

/-- A PCB in the place of the one with its address. -/
theorem map_pcb_replace (pcbs : List UdpPcb) (pcb : UdpPcb) :
    (pcbs.map fun ipcb => if ipcb.pcb = pcb.pcb then pcb else ipcb).map UdpPcb.pcb = pcbs.map UdpPcb.pcb := by
  rw [List.map_map]
  refine List.map_congr_left fun q _ => ?_
  rw [Function.comp_apply]
  split_ifs with h
  · exact h.symm
  · rfl

/-- A PCB that is apart from the others can be put on the list. -/
theorem PcbsOk.insert {s : UdpState} (h : PcbsOk s) {pcb : UdpPcb}
    (hapart : ∀ q ∈ s.udpPcbs, pcb.pcb ≠ q.pcb → Apart pcb q) :
    PcbsOk { s with udpPcbs := udpInsert s.udpPcbs pcb } := by
  have hreplaced : ∀ p ∈ udpInsert s.udpPcbs pcb, p = pcb ∨ p ∈ s.udpPcbs ∧ pcb.pcb ≠ p.pcb := by
    intro p hp
    rw [udpInsert] at hp
    split_ifs at hp with hon
    · obtain ⟨q, hq, rfl⟩ := List.mem_map.mp hp
      split_ifs with heq
      · exact .inl rfl
      · exact .inr ⟨hq, Ne.symm heq⟩
    · rcases List.mem_cons.mp hp with rfl | hp
      · exact .inl rfl
      · exact .inr ⟨hp, fun heq => hon (List.any_eq_true.mpr ⟨p, hp, beq_iff_eq.mpr heq.symm⟩)⟩
  refine ⟨?_, fun p hp q hq hne => ?_, h.port⟩
  · rw [udpInsert]
    split_ifs with hon
    · rw [map_pcb_replace]
      exact h.nodup
    · refine List.nodup_cons.mpr ⟨fun hmem => hon ?_, h.nodup⟩
      obtain ⟨q, hq, heq⟩ := List.mem_map.mp hmem
      exact List.any_eq_true.mpr ⟨q, hq, beq_iff_eq.mpr heq⟩
  · rcases hreplaced p hp with rfl | ⟨hpmem, hpne⟩
    · rcases hreplaced q hq with rfl | ⟨hqmem, hqne⟩
      · exact absurd rfl hne
      · exact hapart q hqmem hqne
    · rcases hreplaced q hq with rfl | ⟨hqmem, hqne⟩
      · exact (hapart p hpmem hpne).symm
      · exact h.apart p hpmem q hqmem hne

theorem mem_udpInsert (pcbs : List UdpPcb) (pcb : UdpPcb) : pcb ∈ udpInsert pcbs pcb := by
  rw [udpInsert]
  split_ifs with hon
  · obtain ⟨q, hq, heq⟩ := List.any_eq_true.mp hon
    exact List.mem_map.mpr ⟨q, hq, if_pos (beq_iff_eq.mp heq)⟩
  · exact List.mem_cons_self

/-- `udp_bind` leaves the list alone, or puts on it the PCB with an address that it shares with no other. -/
theorem PcbsOk.bind {s : UdpState} (h : PcbsOk s) (pcb : UdpPcb) (ipaddr : BitVec 32) (port : BitVec 16) :
    PcbsOk (udpBind s pcb ipaddr port).1 ∧
      ((udpBind s pcb ipaddr port).2.2 = .ok →
        (udpBind s pcb ipaddr port).2.1 ∈ (udpBind s pcb ipaddr port).1.udpPcbs) := by
  rw [udpBind]
  by_cases hport : port = 0#16
  · rw [if_pos hport]
    have hrange := udpNewPort_range s.udpPcbs h.port
    have hunused := udpNewPort_unused s.udpPcbs h.port
    generalize udpNewPort s.udpPcbs s.udpPort = r at hrange hunused
    obtain ⟨udpPort, new⟩ := r
    dsimp only at hrange hunused ⊢
    split_ifs with hzero
    · exact ⟨h.of_port hrange, fun herr => by cases herr⟩
    · have hne : new ≠ 0#16 := fun heq => hzero (decide_eq_true heq)
      refine ⟨(h.of_port hrange).insert fun q hq _ hsame => ?_, fun _ => mem_udpInsert _ _⟩
      exact absurd hsame.symm ((hunused hne).2 q hq)
  · rw [if_neg hport]
    dsimp only
    split_ifs with hused
    · exact ⟨h, fun herr => by cases herr⟩
    · refine ⟨h.insert fun q hq hne hsame => ?_, fun _ => mem_udpInsert _ _⟩
      have hfree : udpInUse pcb q ipaddr port = false := by
        by_contra hin
        exact hused (List.any_eq_true.mpr ⟨q, hq, by simpa using hin⟩)
      have hother : (pcb.pcb != q.pcb) = true := bne_iff_ne.mpr hne
      have hports : (q.localPort == port) = true := beq_iff_eq.mpr hsame.symm
      rw [udpInUse, hother, hports, Bool.true_and, Bool.true_and, Bool.or_eq_false_iff, Bool.or_eq_false_iff,
        beq_eq_false_iff_ne] at hfree
      exact ⟨hfree.1.1.symm, hfree.1.2, hfree.2⟩

/-- A listed PCB that keeps its local address. -/
theorem PcbsOk.replace {s : UdpState} (h : PcbsOk s) {pcb pcb' : UdpPcb} (hmem : pcb ∈ s.udpPcbs)
    (hpcb : pcb'.pcb = pcb.pcb) (hport : pcb'.localPort = pcb.localPort) (hip : pcb'.localIp = pcb.localIp) :
    PcbsOk { s with udpPcbs := udpInsert s.udpPcbs pcb' } := by
  refine h.insert fun q hq hne => ?_
  rw [Apart, hport, hip]
  exact h.apart pcb hmem q hq (hpcb ▸ hne)

theorem PcbsOk.update {s : UdpState} (h : PcbsOk s) {pcb pcb' : UdpPcb} (hheld : s.Held pcb)
    (hpcb : pcb'.pcb = pcb.pcb) (hport : pcb'.localPort = pcb.localPort) (hip : pcb'.localIp = pcb.localIp) :
    PcbsOk (udpUpdate s pcb') := by
  rcases hheld with hmem | ⟨-, hfresh⟩
  · have hon : (s.udpPcbs.any fun ipcb => ipcb.pcb == pcb'.pcb) = true :=
      List.any_eq_true.mpr ⟨pcb, hmem, beq_iff_eq.mpr hpcb.symm⟩
    have hinsert := h.replace hmem hpcb hport hip
    rw [udpInsert, if_pos hon] at hinsert
    exact hinsert
  · have hsame : (s.udpPcbs.map fun ipcb => if ipcb.pcb = pcb'.pcb then pcb' else ipcb) = s.udpPcbs := by
      refine (List.map_congr_left fun q hq => ?_).trans (List.map_id _)
      exact if_neg (hpcb ▸ hfresh q hq)
    rw [udpUpdate, hsame]
    exact h

theorem PcbsOk.connect {s : UdpState} (h : PcbsOk s) {pcb : UdpPcb} (hheld : s.Held pcb) (ipaddr : BitVec 32)
    (port : BitVec 16) : PcbsOk (udpConnect s pcb ipaddr port).1 := by
  rw [udpConnect]
  obtain ⟨hbind, hbound⟩ := h.bind pcb pcb.localIp pcb.localPort
  by_cases hport : pcb.localPort = 0#16
  · rw [if_pos hport]
    generalize udpBind s pcb pcb.localIp pcb.localPort = r at hbind hbound ⊢
    obtain ⟨t, pcb', err⟩ := r
    dsimp only at hbind hbound ⊢
    split_ifs with herr
    · exact hbind
    · exact hbind.replace (hbound (Decidable.not_not.mp herr)) rfl rfl rfl
  · rw [if_neg hport]
    rcases hheld with hmem | ⟨hzero, -⟩
    · exact h.replace hmem rfl rfl rfl
    · exact absurd hzero hport

/-- All that `udp_sendto_if_src` does to the list is to bind the PCB. -/
theorem PcbsOk.sendto {s : UdpState} (h : PcbsOk s) (mem : Memory) (hdr : Option Nat) (pcb : UdpPcb)
    (p : List StructPbuf) (dstIp : BitVec 32) (dstPort : BitVec 16) (srcIp : BitVec 32) :
    PcbsOk (udpSendtoIfSrc mem hdr s pcb p dstIp dstPort srcIp).1 := by
  have hbind := (h.bind pcb pcb.localIp pcb.localPort).1
  rw [udpSendtoIfSrc]
  by_cases hempty : p.isEmpty = true
  · rw [if_pos hempty]
    exact h
  · rw [if_neg hempty]
    by_cases hport : pcb.localPort = 0#16
    · rw [if_pos hport]
      dsimp only
      split_ifs <;> exact hbind
    · rw [if_neg hport]
      exact h

theorem PcbsOk.remove {s : UdpState} (h : PcbsOk s) (pcb : UdpPcb) : PcbsOk (udpRemove s pcb) := by
  have hsub : (s.udpPcbs.eraseP fun ipcb => ipcb.pcb == pcb.pcb).Sublist s.udpPcbs := List.eraseP_sublist
  exact ⟨h.nodup.sublist (hsub.map _), fun p hp q hq => h.apart p (hsub.subset hp) q (hsub.subset hq), h.port⟩

/-- The PCB that a datagram goes to is moved to the front. -/
theorem PcbsOk.moveFront {s : UdpState} (h : PcbsOk s) {pcb : UdpPcb} (hmem : pcb ∈ s.udpPcbs) :
    (pcb :: s.udpPcbs.eraseP fun ipcb => ipcb.pcb == pcb.pcb).Perm s.udpPcbs := by
  obtain ⟨q, l₁, l₂, -, hq, hsplit, herase⟩ :=
    @List.exists_of_eraseP _ (fun ipcb : UdpPcb => ipcb.pcb == pcb.pcb) _ _ hmem (beq_self_eq_true _)
  have hqmem : q ∈ s.udpPcbs := by
    rw [hsplit]
    exact List.mem_append_right _ List.mem_cons_self
  obtain rfl := h.eq_of_pcb hqmem hmem (beq_iff_eq.mp hq)
  rw [herase, hsplit]
  exact List.perm_middle.symm

theorem PcbsOk.perm {s : UdpState} (h : PcbsOk s) {pcbs : List UdpPcb} (hperm : pcbs.Perm s.udpPcbs) :
    PcbsOk { s with udpPcbs := pcbs } :=
  ⟨(hperm.map _).nodup_iff.mpr h.nodup, fun p hp q hq => h.apart p (hperm.mem_iff.mp hp) q (hperm.mem_iff.mp hq), h.port⟩

/-! ### The loop of udp_input -/

section
variable {data : IpData} {broadcast : Bool} {src dest : BitVec 16} {pcb : UdpPcb} {pcbs : List UdpPcb}
  {uncon : Option UdpPcb}

/-- A PCB takes datagrams to a port and a local address. -/
def Listens (data : IpData) (broadcast : Bool) (dest : BitVec 16) (pcb : UdpPcb) : Prop :=
  (pcb.localPort == dest && udpInputLocalMatch pcb data broadcast) = true

/-- The remote address of a PCB is the source of a datagram. -/
def Matches (data : IpData) (src : BitVec 16) (pcb : UdpPcb) : Prop :=
  (pcb.remotePort == src && (ip4AddrIsany pcb.remoteIp || pcb.remoteIp == data.src)) = true

/-- A PCB takes datagrams from a source. -/
def Hears (data : IpData) (src : BitVec 16) (pcb : UdpPcb) : Prop := pcb.connected = false ∨ Matches data src pcb

/-- `uncon_pcb` after a PCB that listens -/
def nextUncon (data : IpData) (broadcast : Bool) (pcb : UdpPcb) (uncon : Option UdpPcb) : Option UdpPcb :=
  if !pcb.connected then udpUncon data broadcast pcb uncon else uncon

theorem udpInputLoop_of_matches (h : Listens data broadcast dest pcb) (hmatch : Matches data src pcb) :
    udpInputLoop data broadcast src dest (pcb :: pcbs) uncon = (some pcb, nextUncon data broadcast pcb uncon) :=
  (if_pos h).trans (if_pos hmatch)

theorem udpInputLoop_of_listens (h : Listens data broadcast dest pcb) (hmatch : ¬Matches data src pcb) :
    udpInputLoop data broadcast src dest (pcb :: pcbs) uncon =
      udpInputLoop data broadcast src dest pcbs (nextUncon data broadcast pcb uncon) :=
  (if_pos h).trans (if_neg hmatch)

theorem udpInputLoop_of_not_listens (h : ¬Listens data broadcast dest pcb) :
    udpInputLoop data broadcast src dest (pcb :: pcbs) uncon = udpInputLoop data broadcast src dest pcbs uncon :=
  if_neg h

theorem nextUncon_eq_some {q : UdpPcb} (h : nextUncon data broadcast pcb uncon = some q) :
    q = pcb ∧ pcb.connected = false ∨ uncon = some q := by
  rw [nextUncon] at h
  split_ifs at h with hconnected
  · have hfree : pcb.connected = false := by simpa using hconnected
    cases uncon with
    | none => exact .inl ⟨(Option.some.inj h).symm, hfree⟩
    | some r =>
      rw [udpUncon] at h
      split_ifs at h
      · exact .inl ⟨(Option.some.inj h).symm, hfree⟩
      · exact .inr h
  · exact .inr h

theorem nextUncon_isSome (h : pcb.connected = false ∨ uncon.isSome = true) :
    (nextUncon data broadcast pcb uncon).isSome = true := by
  rw [nextUncon]
  cases uncon with
  | none =>
    rcases h with hfree | hnone
    · rw [hfree]
      rfl
    · cases hnone
  | some r =>
    split_ifs
    · rw [udpUncon]
      split_ifs <;> rfl
    · rfl

/-- The PCB that the loop stops at. -/
theorem udpInputLoop_fst (h : (udpInputLoop data broadcast src dest pcbs uncon).1 = some pcb) :
    pcb ∈ pcbs ∧ Listens data broadcast dest pcb ∧ Matches data src pcb := by
  induction pcbs generalizing uncon with
  | nil => cases h
  | cons q pcbs ih =>
    by_cases hlistens : Listens data broadcast dest q
    · by_cases hmatch : Matches data src q
      · rw [udpInputLoop_of_matches hlistens hmatch] at h
        obtain rfl := Option.some.inj h
        exact ⟨List.mem_cons_self, hlistens, hmatch⟩
      · rw [udpInputLoop_of_listens hlistens hmatch] at h
        exact (ih h).imp_left (List.mem_cons_of_mem _)
    · rw [udpInputLoop_of_not_listens hlistens] at h
      exact (ih h).imp_left (List.mem_cons_of_mem _)

/-- The unconnected PCB that the loop comes by. -/
theorem udpInputLoop_snd (h : (udpInputLoop data broadcast src dest pcbs uncon).2 = some pcb) :
    (pcb ∈ pcbs ∧ Listens data broadcast dest pcb ∧ pcb.connected = false) ∨ uncon = some pcb := by
  induction pcbs generalizing uncon with
  | nil => exact .inr h
  | cons q pcbs ih =>
    have hskip : ∀ {uncon'}, (udpInputLoop data broadcast src dest pcbs uncon').2 = some pcb →
        (pcb ∈ q :: pcbs ∧ Listens data broadcast dest pcb ∧ pcb.connected = false) ∨ uncon' = some pcb := fun h =>
      (ih h).imp_left (And.imp_left (List.mem_cons_of_mem _))
    by_cases hlistens : Listens data broadcast dest q
    · have hnext : nextUncon data broadcast q uncon = some pcb →
          (pcb ∈ q :: pcbs ∧ Listens data broadcast dest pcb ∧ pcb.connected = false) ∨ uncon = some pcb := fun h => by
        rcases nextUncon_eq_some h with ⟨rfl, hfree⟩ | hbefore
        · exact .inl ⟨List.mem_cons_self, hlistens, hfree⟩
        · exact .inr hbefore
      by_cases hmatch : Matches data src q
      · rw [udpInputLoop_of_matches hlistens hmatch] at h
        exact hnext h
      · rw [udpInputLoop_of_listens hlistens hmatch] at h
        exact (hskip h).elim .inl hnext
    · rw [udpInputLoop_of_not_listens hlistens] at h
      exact hskip h

/-- A PCB that listens and hears the source does not let a datagram through. -/
theorem udpInputLoop_isSome
    (h : pcb ∈ pcbs ∧ Listens data broadcast dest pcb ∧ Hears data src pcb ∨ uncon.isSome = true) :
    ((udpInputLoop data broadcast src dest pcbs uncon).1.or
      (udpInputLoop data broadcast src dest pcbs uncon).2).isSome = true := by
  induction pcbs generalizing uncon with
  | nil =>
    rcases h with ⟨hmem, -⟩ | hsome
    · cases hmem
    · exact hsome
  | cons q pcbs ih =>
    by_cases hlistens : Listens data broadcast dest q
    · by_cases hmatch : Matches data src q
      · rw [udpInputLoop_of_matches hlistens hmatch]
        rfl
      · rw [udpInputLoop_of_listens hlistens hmatch]
        refine ih ?_
        rcases h with ⟨hmem, hl, hh⟩ | hsome
        · rcases List.mem_cons.mp hmem with rfl | hmem
          · exact .inr (nextUncon_isSome (.inl (hh.resolve_right hmatch)))
          · exact .inl ⟨hmem, hl, hh⟩
        · exact .inr (nextUncon_isSome (.inr hsome))
    · rw [udpInputLoop_of_not_listens hlistens]
      refine ih (h.imp_left ?_)
      rintro ⟨hmem, hl, hh⟩
      rcases List.mem_cons.mp hmem with rfl | hmem
      · exact absurd hl hlistens
      · exact ⟨hmem, hl, hh⟩

/-- The PCB that a datagram goes to. -/
def udpPcbFor (data : IpData) (src dest : BitVec 16) (udpPcbs : List UdpPcb) : Option UdpPcb :=
  let r := udpInputLoop data (ip4AddrIsbroadcast data.dest data.currentNetif) src dest udpPcbs none
  r.1.or r.2

theorem udpPcbFor_mem (h : udpPcbFor data src dest pcbs = some pcb) :
    pcb ∈ pcbs ∧ Listens data (ip4AddrIsbroadcast data.dest data.currentNetif) dest pcb ∧ Hears data src pcb := by
  rw [udpPcbFor, Option.or_eq_some_iff] at h
  rcases h with h | ⟨-, h⟩
  · obtain ⟨hmem, hlistens, hmatch⟩ := udpInputLoop_fst h
    exact ⟨hmem, hlistens, .inr hmatch⟩
  · rcases udpInputLoop_snd h with ⟨hmem, hlistens, hfree⟩ | hnone
    · exact ⟨hmem, hlistens, .inl hfree⟩
    · cases hnone

end

/-! ### Runs -/

theorem PcbsOk.input {s : UdpState} (h : PcbsOk s) (mem : Memory) (data : IpData) (p : List StructPbuf) :
    PcbsOk (udpInput mem s data p).1 := by
  cases p with
  | nil => exact h
  | cons first ps =>
    rw [udpInput]
    split_ifs
    · exact h
    dsimp only
    generalize hr : udpInputLoop data (ip4AddrIsbroadcast data.dest data.currentNetif)
      (lwipHtons (load16 mem first.payload)) (lwipHtons (load16 mem (first.payload + 2))) s.udpPcbs none = r
    obtain ⟨found, uncon⟩ := r
    cases found with
    | none =>
      dsimp only
      split_ifs
      · exact h
      · split <;> exact h
      · exact h
    | some pcb =>
      have hmem := (udpInputLoop_fst (congrArg Prod.fst hr)).1
      have hmoved := h.perm (h.moveFront hmem)
      dsimp only
      split_ifs
      · exact hmoved
      · split <;> exact hmoved
      · exact hmoved

theorem PcbsOk.ipAddrChanged {s : UdpState} (h : PcbsOk s) {newAddr : BitVec 32}
    (hnew : ∀ pcb ∈ s.udpPcbs, pcb.localIp ≠ newAddr) (oldAddr : BitVec 32) :
    PcbsOk (udpNetifIpAddrChanged s oldAddr newAddr) := by
  rw [udpNetifIpAddrChanged]
  by_cases hany : (!ip4AddrIsany oldAddr && !ip4AddrIsany newAddr) = true
  · rw [if_pos hany]
    have hnone : ip4AddrIsany newAddr = false := by
      simpa using (Bool.and_eq_true_iff.mp hany).2
    refine ⟨?_, fun p hp q hq hne => ?_, h.port⟩
    · have hids : (s.udpPcbs.map fun upcb => if upcb.localIp = oldAddr then { upcb with localIp := newAddr }
          else upcb).map UdpPcb.pcb = s.udpPcbs.map UdpPcb.pcb := by
        rw [List.map_map]
        refine List.map_congr_left fun q _ => ?_
        rw [Function.comp_apply]
        split_ifs <;> rfl
      rw [hids]
      exact h.nodup
    · obtain ⟨p, hpmem, rfl⟩ := List.mem_map.mp hp
      obtain ⟨q, hqmem, rfl⟩ := List.mem_map.mp hq
      have hpq : p.pcb ≠ q.pcb → Apart p q := h.apart p hpmem q hqmem
      split_ifs at hne ⊢ with hpold hqold hqold
      · exact fun hport => absurd (hpold.trans hqold.symm) (hpq hne hport).1
      · exact fun hport => ⟨(hnew q hqmem).symm, hnone, (hpq hne hport).2.2⟩
      · exact fun hport => ⟨hnew p hpmem, (hpq hne hport).2.1, hnone⟩
      · exact hpq hne
  · rw [if_neg hany]
    exact h

theorem PcbsOk.step {s t : UdpState} (h : PcbsOk s) (hstep : UdpStep s t) : PcbsOk t := by
  cases hstep with
  | bind _ ipaddr port => exact (h.bind _ ipaddr port).1
  | connect hheld ipaddr port => exact h.connect hheld ipaddr port
  | disconnect hheld => exact h.update hheld rfl rfl rfl
  | recv hheld callback => exact h.update hheld rfl rfl rfl
  | remove _ => exact h.remove _
  | input mem data p => exact h.input mem data p
  | sendto _ mem hdr p dstIp dstPort srcIp => exact h.sendto mem hdr _ p dstIp dstPort srcIp
  | ipAddrChanged hnew oldAddr => exact h.ipAddrChanged hnew oldAddr

theorem PcbsOk.run {s t : UdpState} (h : s.Initial) (hrun : Relation.ReflTransGen UdpStep s t) : PcbsOk t := by
  induction hrun with
  | refl => exact .initial h
  | tail _ hstep ih => exact ih.step hstep

/-- At most one PCB listens for a datagram to one host. -/
theorem PcbsOk.listens_unique {s : UdpState} (h : PcbsOk s) {data : IpData} {dest : BitVec 16} {p q : UdpPcb}
    (hp : p ∈ s.udpPcbs) (hq : q ∈ s.udpPcbs) (hpl : Listens data false dest p) (hql : Listens data false dest q) :
    p = q := by
  refine h.eq_of_pcb hp hq (Decidable.byContradiction fun hne => ?_)
  obtain ⟨hpport, hpmatch⟩ := Bool.and_eq_true_iff.mp hpl
  obtain ⟨hqport, hqmatch⟩ := Bool.and_eq_true_iff.mp hql
  obtain ⟨hips, hpany, hqany⟩ := h.apart p hp q hq hne ((beq_iff_eq.mp hpport).trans (beq_iff_eq.mp hqport).symm)
  have hlocal : ∀ r : UdpPcb, ip4AddrIsany r.localIp = false → udpInputLocalMatch r data false = true →
      r.localIp = data.dest := fun r hany hmatch => by
    rw [udpInputLocalMatch] at hmatch
    split_ifs at hmatch with hnetif hfalse
    · cases hfalse
    · rw [hany, Bool.false_or] at hmatch
      exact beq_iff_eq.mp hmatch
  exact hips ((hlocal p hpany hpmatch).trans (hlocal q hqany hqmatch).symm)

theorem PcbsOk.udpPcbFor_eq {s : UdpState} (h : PcbsOk s) {data : IpData}
    (hhost : ip4AddrIsbroadcast data.dest data.currentNetif = false) {src dest : BitVec 16} {pcb : UdpPcb}
    (hmem : pcb ∈ s.udpPcbs) (hlistens : Listens data false dest pcb) (hhears : Hears data src pcb) :
    udpPcbFor data src dest s.udpPcbs = some pcb := by
  have hsome : (udpPcbFor data src dest s.udpPcbs).isSome = true :=
    udpInputLoop_isSome (.inl ⟨hmem, hhost ▸ hlistens, hhears⟩)
  obtain ⟨q, hq⟩ := Option.isSome_iff_exists.mp hsome
  obtain ⟨hqmem, hqlistens, -⟩ := udpPcbFor_mem hq
  rw [hhost] at hqlistens
  rw [hq, h.listens_unique hqmem hmem hqlistens hlistens]

/-- After any calls, a datagram to one host goes to the PCB that listens there and hears its source, if there is one:
    neither the order of the list nor the datagrams before, which change it, matter. -/
theorem udpPcbFor_iff {s t : UdpState} (hinit : s.Initial) (hrun : Relation.ReflTransGen UdpStep s t) {data : IpData}
    (hhost : ip4AddrIsbroadcast data.dest data.currentNetif = false) (src dest : BitVec 16) (pcb : UdpPcb) :
    udpPcbFor data src dest t.udpPcbs = some pcb ↔
      pcb ∈ t.udpPcbs ∧ Listens data false dest pcb ∧ Hears data src pcb := by
  have hok : PcbsOk t := .run hinit hrun
  constructor
  · intro h
    obtain ⟨hmem, hlistens, hhears⟩ := udpPcbFor_mem h
    exact ⟨hmem, hhost ▸ hlistens, hhears⟩
  · rintro ⟨hmem, hlistens, hhears⟩
    exact hok.udpPcbFor_eq hhost hmem hlistens hhears

/-- A PCB for port 101 that hears port 200 of 192.168.1.10, and one for port 102, which is in front of it -/
def twoPcbs : UdpState :=
  let (s, pcb, _) := udpBind ⟨[], 0xc000#16⟩ (udpNew 7) 0#32 101#16
  let (s, _, _) := udpConnect s pcb (lanNetif 10).ipAddr 200#16
  (udpBind s (udpNew 8) 0#32 102#16).1

/-- The PCBs after a datagram for the first one -/
def reorderedPcbs : UdpState :=
  (udpInput (ofBytes [0, 200, 0, 101, 0, 8, 0, 0]) twoPcbs ⟨lanNetif 11, lanNetif 11, (lanNetif 10).ipAddr,
    (lanNetif 11).ipAddr, 20⟩ [⟨0, 8, 8, .pool, 0⟩]).1

theorem run_reorderedPcbs : Relation.ReflTransGen UdpStep ⟨[], 0xc000#16⟩ reorderedPcbs := by
  let s₁ := (udpBind ⟨[], 0xc000#16⟩ (udpNew 7) 0#32 101#16).1
  let s₂ := (udpConnect s₁ { udpNew 7 with localPort := 101#16 } (lanNetif 10).ipAddr 200#16).1
  have hbind : UdpStep ⟨[], 0xc000#16⟩ s₁ := .bind (.inr ⟨rfl, by decide⟩) _ _
  have hconnect : UdpStep s₁ s₂ := .connect (.inl List.mem_cons_self) _ _
  have hbind' : UdpStep s₂ twoPcbs := @UdpStep.bind s₂ (udpNew 8) (.inr ⟨rfl, by decide⟩) _ _
  exact .tail (.tail (.tail (.single hbind) hconnect) hbind') (.input _ _ _)

/-- What comes for the other one still reaches it, now behind the first one. -/
theorem udpPcbFor_iff_reordered :
    reorderedPcbs.udpPcbs.map UdpPcb.pcb = [7, 8] ∧
      udpPcbFor ⟨lanNetif 11, lanNetif 11, (lanNetif 10).ipAddr, (lanNetif 11).ipAddr, 20⟩ 201#16 102#16
        reorderedPcbs.udpPcbs = some { udpNew 8 with localPort := 102#16 } :=
  ⟨by decide, (udpPcbFor_iff ⟨rfl, by decide⟩ run_reorderedPcbs (by decide) _ _ _).mpr ⟨by decide, rfl, .inl rfl⟩⟩

end YlsFirmware
