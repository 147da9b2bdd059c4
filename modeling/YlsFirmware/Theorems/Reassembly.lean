import YlsFirmware.Theorems.Fragments
import Mathlib.Algebra.BigOperators.Group.List.Basic
import Mathlib.Algebra.GroupWithZero.Nat

/-! What `ip4_reass` does with the list of datagrams: which ones give way, and which one gets the fragment. -/

namespace YlsFirmware
open Packed Pieces

variable {α : Type} {pbufClen : α → Nat} {s : IpReass α} {fraghdr : List Byte}

/-! ### Lists -/

section Lists
variable {β : Type} {as bs : List β} {b : β}

theorem getElem?_split : (as ++ b :: bs)[as.length]? = some b := by
  rw [List.getElem?_append_right (Nat.le_refl _), Nat.sub_self]
  rfl

theorem set_split (c : β) : (as ++ b :: bs).set as.length c = as ++ c :: bs := by
  rw [List.set_append_right _ _ (Nat.le_refl _), Nat.sub_self]
  rfl

theorem eraseIdx_split : (as ++ b :: bs).eraseIdx as.length = as ++ bs := by
  rw [List.eraseIdx_append_of_length_le (Nat.le_refl _), Nat.sub_self]
  rfl

theorem mem_split {x : β} (h : x ∈ as ++ b :: bs) : x = b ∨ x ∈ as ++ bs := by
  rcases List.mem_append.mp h with h | h
  · exact .inr (List.mem_append_left _ h)
  · exact (List.mem_cons.mp h).imp_right (List.mem_append_right _)

end Lists

/-! ### Datagrams and their pbufs -/

/-- What tells the datagrams apart -/
def ipKey (iphdr : List Byte) : BitVec 32 × BitVec 32 × BitVec 16 :=
  (iphSrc (ofBytes iphdr) 0, iphDest (ofBytes iphdr) 0, iphId (ofBytes iphdr) 0)

theorem ipAddressesAndIdMatch_iff {a b : List Byte} : ipAddressesAndIdMatch a b = true ↔ ipKey a = ipKey b := by
  rw [ipAddressesAndIdMatch, Bool.and_eq_true, Bool.and_eq_true, beq_iff_eq, beq_iff_eq, beq_iff_eq, ipKey, ipKey,
    Prod.mk.injEq, Prod.mk.injEq, and_assoc]

/-- A datagram is the one of a fragment. -/
abbrev IpReassdata.IsOf (fraghdr : List Byte) (r : IpReassdata α) : Prop := ipKey r.iphdr = ipKey fraghdr

/-- The number of pbufs of some datagrams -/
def pbufsOf (pbufClen : α → Nat) (rs : List (IpReassdata α)) : Nat := (rs.map (IpReassdata.clen pbufClen)).sum

theorem pbufsOf_cons (r : IpReassdata α) (rs : List (IpReassdata α)) :
    pbufsOf pbufClen (r :: rs) = r.clen pbufClen + pbufsOf pbufClen rs := by
  rw [pbufsOf, List.map_cons, List.sum_cons]
  rfl

theorem pbufsOf_append (as bs : List (IpReassdata α)) :
    pbufsOf pbufClen (as ++ bs) = pbufsOf pbufClen as + pbufsOf pbufClen bs := by
  rw [pbufsOf, List.map_append, List.sum_append]
  rfl

theorem pbufsOf_split {as bs : List (IpReassdata α)} {r : IpReassdata α} :
    pbufsOf pbufClen (as ++ r :: bs) = r.clen pbufClen + pbufsOf pbufClen (as ++ bs) := by
  rw [pbufsOf_append, pbufsOf_cons, pbufsOf_append, Nat.add_left_comm]

theorem pbufsOf_perm {as bs : List (IpReassdata α)} (h : as.Perm bs) : pbufsOf pbufClen as = pbufsOf pbufClen bs :=
  (h.map _).sum_eq

/-! ### The oldest datagram -/

/-- The number of datagrams that could give way to a fragment -/
def otherDatagrams (fraghdr : List Byte) (rs : List (IpReassdata α)) : Nat :=
  rs.countP fun r => !ipAddressesAndIdMatch r.iphdr fraghdr

theorem otherDatagrams_cons_of_isOf {q : IpReassdata α} (hq : q.IsOf fraghdr) (qs : List (IpReassdata α)) :
    otherDatagrams fraghdr (q :: qs) = otherDatagrams fraghdr qs :=
  List.countP_cons_of_neg (by simp [ipAddressesAndIdMatch_iff.mpr hq])

theorem otherDatagrams_cons_of_not_isOf {q : IpReassdata α} (hq : ¬q.IsOf fraghdr) (qs : List (IpReassdata α)) :
    otherDatagrams fraghdr (q :: qs) = otherDatagrams fraghdr qs + 1 :=
  List.countP_cons_of_pos (by simp [mt ipAddressesAndIdMatch_iff.mp hq])

theorem otherDatagrams_split {as bs : List (IpReassdata α)} {r : IpReassdata α} (hr : ¬r.IsOf fraghdr) :
    otherDatagrams fraghdr (as ++ r :: bs) = otherDatagrams fraghdr (as ++ bs) + 1 := by
  have hcons := otherDatagrams_cons_of_not_isOf hr bs
  rw [otherDatagrams, otherDatagrams] at hcons
  rw [otherDatagrams, otherDatagrams, List.countP_append, List.countP_append, hcons, Nat.add_assoc]

theorem otherDatagrams_eq_zero_iff {rs : List (IpReassdata α)} :
    otherDatagrams fraghdr rs = 0 ↔ ∀ r ∈ rs, r.IsOf fraghdr := by
  rw [otherDatagrams, List.countP_eq_zero]
  refine forall₂_congr fun r _ => ?_
  rw [Bool.not_eq_true', Bool.not_eq_false, ipAddressesAndIdMatch_iff]

/-- The datagram of the fragment itself is passed over. -/
theorem ipReassOldestLoop_cons_of_isOf {q : IpReassdata α} (hq : q.IsOf fraghdr) (qs : List (IpReassdata α)) (i : Nat)
    (oldest : Option (Nat × Nat)) (n : Nat) :
    ipReassOldestLoop fraghdr (q :: qs) i oldest n = ipReassOldestLoop fraghdr qs (i + 1) oldest n := by
  rw [ipReassOldestLoop.eq_def]
  exact if_pos (ipAddressesAndIdMatch_iff.mpr hq)

/-- Another datagram is counted, and it is the oldest one up to here or the one before stays. -/
theorem ipReassOldestLoop_cons_of_not_isOf {q : IpReassdata α} (hq : ¬q.IsOf fraghdr) (qs : List (IpReassdata α))
    (i : Nat) (oldest : Option (Nat × Nat)) (n : Nat) :
    ∃ o, (o = some (i, q.timer) ∨ o = oldest ∧ o ≠ none) ∧
      ipReassOldestLoop fraghdr (q :: qs) i oldest n = ipReassOldestLoop fraghdr qs (i + 1) o (n + 1) := by
  refine ⟨_, ?_, (ipReassOldestLoop.eq_def ..).trans (if_neg (mt ipAddressesAndIdMatch_iff.mp hq))⟩
  cases oldest with
  | none => exact .inl rfl
  | some jt =>
    obtain ⟨j, t⟩ := jt
    dsimp only
    split_ifs
    · exact .inl rfl
    · exact .inr ⟨rfl, Option.some_ne_none _⟩

/-- The search finds one of the other datagrams, if there is any, and counts them. -/
theorem ipReassOldestLoop_spec (fraghdr : List Byte) (l : List (IpReassdata α)) (i : Nat) (oldest : Option (Nat × Nat))
    (n : Nat) :
    (ipReassOldestLoop fraghdr l i oldest n).2 = n + otherDatagrams fraghdr l ∧
      ((ipReassOldestLoop fraghdr l i oldest n).1 = oldest ∧ (oldest = none → ∀ r ∈ l, r.IsOf fraghdr) ∨
        ∃ as r bs, l = as ++ r :: bs ∧ ¬r.IsOf fraghdr ∧
          (ipReassOldestLoop fraghdr l i oldest n).1 = some (i + as.length, r.timer)) := by
  induction l generalizing i oldest n with
  | nil => exact ⟨rfl, .inl ⟨rfl, fun _ _ hr => absurd hr List.not_mem_nil⟩⟩
  | cons q qs ih =>
    by_cases hq : q.IsOf fraghdr
    · rw [ipReassOldestLoop_cons_of_isOf hq, otherDatagrams_cons_of_isOf hq]
      obtain ⟨hcount, ⟨hsame, hall⟩ | ⟨as, r, bs, rfl, hr, heq⟩⟩ := ih (i + 1) oldest n
      · exact ⟨hcount, .inl ⟨hsame, fun hnone => List.forall_mem_cons.mpr ⟨hq, hall hnone⟩⟩⟩
      · refine ⟨hcount, .inr ⟨q :: as, r, bs, rfl, hr, ?_⟩⟩
        rw [heq, List.length_cons, Nat.add_assoc, Nat.add_comm 1]
    · obtain ⟨o, ho, hstep⟩ := ipReassOldestLoop_cons_of_not_isOf hq qs i oldest n
      rw [hstep, otherDatagrams_cons_of_not_isOf hq]
      obtain ⟨hcount, hfound⟩ := ih (i + 1) o (n + 1)
      refine ⟨by rw [hcount]; omega, ?_⟩
      rcases hfound with ⟨hsame, -⟩ | ⟨as, r, bs, rfl, hr, heq⟩
      · rcases ho with rfl | ⟨rfl, hsome⟩
        · exact .inr ⟨[], q, qs, rfl, hq, hsame⟩
        · exact .inl ⟨hsame, fun hnone => absurd hnone hsome⟩
      · refine .inr ⟨q :: as, r, bs, rfl, hr, ?_⟩
        rw [heq, List.length_cons, Nat.add_assoc, Nat.add_comm 1]

/-! ### Datagrams that give way -/

/-- Some datagrams are freed, none of them that of the fragment. -/
structure Removed (pbufClen : α → Nat) (fraghdr : List Byte) (s s' : IpReass α) (removed : List (IpReassdata α)) :
    Prop where
  sublist : s'.reassdatagrams.Sublist s.reassdatagrams
  perm : s.reassdatagrams.Perm (removed ++ s'.reassdatagrams)
  others : ∀ r ∈ removed, ¬r.IsOf fraghdr
  count : s'.pbufcount = pbufsOf pbufClen s'.reassdatagrams

theorem Removed.refl (h : s.pbufcount = pbufsOf pbufClen s.reassdatagrams) : Removed pbufClen fraghdr s s [] :=
  ⟨List.Sublist.refl _, List.Perm.refl _, fun _ hr => absurd hr List.not_mem_nil, h⟩

theorem Removed.trans {s₁ s' : IpReass α} {rs rs' : List (IpReassdata α)} (h : Removed pbufClen fraghdr s s₁ rs)
    (h' : Removed pbufClen fraghdr s₁ s' rs') : Removed pbufClen fraghdr s s' (rs ++ rs') := by
  refine ⟨h'.sublist.trans h.sublist, ?_, fun r hr => ?_, h'.count⟩
  · rw [List.append_assoc]
    exact h.perm.trans (h'.perm.append_left rs)
  · exact (List.mem_append.mp hr).elim (h.others r) (h'.others r)

theorem Removed.pbufs {s' : IpReass α} {rs : List (IpReassdata α)} (h : Removed pbufClen fraghdr s s' rs) :
    pbufsOf pbufClen s.reassdatagrams = pbufsOf pbufClen rs + pbufsOf pbufClen s'.reassdatagrams := by
  rw [pbufsOf_perm h.perm, pbufsOf_append]

/-- One datagram is freed. -/
theorem ipReassFreeCompleteDatagram_spec {as bs : List (IpReassdata α)} {r : IpReassdata α}
    (hlist : s.reassdatagrams = as ++ r :: bs) (hr : ¬r.IsOf fraghdr)
    (hcount : s.pbufcount = pbufsOf pbufClen s.reassdatagrams) (hmax : s.pbufcount < 2 ^ 16) :
    ipReassFreeCompleteDatagram pbufClen s as.length =
        (⟨as ++ bs, pbufsOf pbufClen (as ++ bs)⟩, r.frees, r.clen pbufClen) ∧
      Removed pbufClen fraghdr s ⟨as ++ bs, pbufsOf pbufClen (as ++ bs)⟩ [r] := by
  have hsum : s.pbufcount = r.clen pbufClen + pbufsOf pbufClen (as ++ bs) := by
    rw [hcount, hlist, pbufsOf_split]
  constructor
  · have hmod : r.clen pbufClen % 2 ^ 16 = r.clen pbufClen := Nat.mod_eq_of_lt (by omega)
    have hleft : (2 ^ 16 + s.pbufcount - r.clen pbufClen) % 2 ^ 16 = pbufsOf pbufClen (as ++ bs) := by omega
    rw [ipReassFreeCompleteDatagram, hlist, getElem?_split]
    dsimp only
    rw [eraseIdx_split, hmod, hleft]
  · refine ⟨?_, ?_, fun q hq => List.mem_singleton.mp hq ▸ hr, rfl⟩
    · rw [hlist]
      exact (List.sublist_cons_self r bs).append_left as
    · rw [hlist]
      exact List.perm_middle

theorem Removed.pbufcount_eq {s' : IpReass α} {rs : List (IpReassdata α)} (h : Removed pbufClen fraghdr s s' rs)
    (hcount : s.pbufcount = pbufsOf pbufClen s.reassdatagrams) : s.pbufcount = pbufsOf pbufClen rs + s'.pbufcount := by
  rw [hcount, h.pbufs, h.count]

/-- The rounds free other datagrams, until there is enough room or none is left. -/
theorem ipReassRemoveLoop_spec (fraghdr : List Byte) (needed n freed : Nat)
    (hcount : s.pbufcount = pbufsOf pbufClen s.reassdatagrams) (hmax : s.pbufcount < 2 ^ 16) :
    ∃ rs s', ipReassRemoveLoop pbufClen fraghdr needed n s freed =
        (s', rs.flatMap IpReassdata.frees, freed + pbufsOf pbufClen rs) ∧
      Removed pbufClen fraghdr s s' rs ∧
      (otherDatagrams fraghdr s.reassdatagrams < n →
        needed ≤ freed + pbufsOf pbufClen rs ∨ ∀ r ∈ s'.reassdatagrams, r.IsOf fraghdr) := by
  induction n generalizing s freed with
  | zero => exact ⟨[], s, rfl, .refl hcount, fun h => absurd h (Nat.not_lt_zero _)⟩
  | succ n ih =>
    rw [ipReassRemoveLoop]
    have hspec := ipReassOldestLoop_spec fraghdr s.reassdatagrams 0 none 0
    rw [Nat.zero_add] at hspec
    generalize ipReassOldestLoop fraghdr s.reassdatagrams 0 none 0 = found at hspec ⊢
    obtain ⟨oldest, k⟩ := found
    obtain ⟨rfl, ⟨rfl, hall⟩ | ⟨as, r, bs, hlist, hr, rfl⟩⟩ := hspec
    · -- no other datagram is there
      have hstop : ¬(freed + 0 < needed ∧ 1 < otherDatagrams fraghdr s.reassdatagrams) := by
        rw [otherDatagrams_eq_zero_iff.mpr (hall rfl)]
        exact fun h => absurd h.2 (by decide)
      exact ⟨[], s, if_neg hstop, .refl hcount, fun _ => .inr (hall rfl)⟩
    · obtain ⟨hfree, hremoved⟩ := ipReassFreeCompleteDatagram_spec hlist hr hcount hmax
      simp only [Nat.zero_add, hfree]
      have hone : pbufsOf pbufClen [r] = r.clen pbufClen := by rw [pbufsOf_cons]; rfl
      have hsplit : otherDatagrams fraghdr s.reassdatagrams = otherDatagrams fraghdr (as ++ bs) + 1 := by
        rw [hlist, otherDatagrams_split hr]
      split_ifs with hagain
      · have hle := hremoved.pbufcount_eq hcount
        dsimp only at hle
        obtain ⟨rs, s', hloop, hrest, hstop⟩ := ih (s := ⟨as ++ bs, pbufsOf pbufClen (as ++ bs)⟩)
          (freed + r.clen pbufClen) rfl (by dsimp only; omega)
        refine ⟨[r] ++ rs, s', ?_, hremoved.trans hrest, fun hlt => ?_⟩
        · rw [hloop, List.singleton_append, List.flatMap_cons, pbufsOf_cons, Nat.add_assoc]
        · rw [List.singleton_append, pbufsOf_cons, ← Nat.add_assoc]
          exact hstop (by dsimp only; omega)
      · refine ⟨[r], _, ?_, hremoved, fun _ => ?_⟩
        · rw [hone, List.flatMap_singleton]
        · rw [hone]
          by_cases henough : needed ≤ freed + r.clen pbufClen
          · exact .inl henough
          · have hzero : otherDatagrams fraghdr (as ++ bs) = 0 := by omega
            exact .inr (otherDatagrams_eq_zero_iff.mp hzero)

theorem ipReassRemoveOldestDatagram_spec (fraghdr : List Byte) (needed : Nat)
    (hcount : s.pbufcount = pbufsOf pbufClen s.reassdatagrams) (hmax : s.pbufcount < 2 ^ 16) :
    ∃ rs s', ipReassRemoveOldestDatagram pbufClen s fraghdr needed =
        (s', rs.flatMap IpReassdata.frees, pbufsOf pbufClen rs) ∧
      Removed pbufClen fraghdr s s' rs ∧ (needed ≤ pbufsOf pbufClen rs ∨ ∀ r ∈ s'.reassdatagrams, r.IsOf fraghdr) := by
  obtain ⟨rs, s', hloop, hremoved, hstop⟩ :=
    ipReassRemoveLoop_spec fraghdr needed (s.reassdatagrams.length + 1) 0 hcount hmax
  rw [Nat.zero_add] at hloop hstop
  exact ⟨rs, s', hloop, hremoved, hstop (Nat.lt_succ_of_le List.countP_le_length)⟩

/-! ### A fragment in its datagram -/

/-- The length of the data of a fragment -/
def fragLen (fraghdr : List Byte) : Nat := iphLen (ofBytes fraghdr) 0 - ipHlen

/-- `is_last` -/
def isLastFrag (fraghdr : List Byte) : Bool := iphOffset (ofBytes fraghdr) 0 &&& lwipHtons ipMf == 0#16

/-- Where the data of a fragment end in the datagram -/
def fragStop (fraghdr : List Byte) : Nat := iphOffsetBytes fraghdr + fragLen fraghdr

/-- The helper structure of a fragment -/
def fragment (fraghdr : List Byte) (p : α) : IpReassHelper α := ⟨p, iphOffsetBytes fraghdr, fragStop fraghdr⟩

/-- A datagram whose fragments are `l` now, one of them the new one -/
def IpReassdata.withFragment (fraghdr : List Byte) (l : List (IpReassHelper α)) (ipr : IpReassdata α) : IpReassdata α :=
  { ipr with
    p := l
    datagramLen := if isLastFrag fraghdr then fragStop fraghdr else ipr.datagramLen
    lastfrag := ipr.lastfrag || isLastFrag fraghdr }

/-- The last fragment is there, and no hole. -/
def IpReassdata.Complete (r : IpReassdata α) : Prop := r.lastfrag = true ∧ FragmentsChained 0 r.p

/-- The fragments are apart and in order. -/
structure FragmentsOk (l : List (IpReassHelper α)) : Prop where
  ordered : FragmentsOrdered l
  le : ∀ q ∈ l, q.start ≤ q.stop

theorem fragmentsOk_nil : FragmentsOk ([] : List (IpReassHelper α)) :=
  ⟨List.Pairwise.nil, fun _ hq => absurd hq List.not_mem_nil⟩

theorem FragmentsOk.insert {ls rs : List (IpReassHelper α)} {x : IpReassHelper α} (h : FragmentsOk (ls ++ rs))
    (hordered : FragmentsOrdered (ls ++ x :: rs)) (hx : x.start ≤ x.stop) : FragmentsOk (ls ++ x :: rs) :=
  ⟨hordered, fun q hq => (mem_split hq).elim (· ▸ hx) (h.le q)⟩

theorem iphOffsetBytes_lt : iphOffsetBytes fraghdr < 2 ^ 16 := Nat.mod_lt _ (by decide)

theorem fragLen_lt : fragLen fraghdr < 2 ^ 16 := Nat.lt_of_le_of_lt (Nat.sub_le _ _) (BitVec.isLt _)

theorem ipReassChainFrag_eq_none {ipr : IpReassdata α} {p : α} {isLast : Bool} (h : 2 ^ 16 ≤ fragStop fraghdr) :
    ipReassChainFrag ipr p (iphOffsetBytes fraghdr) (fragLen fraghdr) isLast = none := by
  have hoffset := @iphOffsetBytes_lt fraghdr
  have hlen := @fragLen_lt fraghdr
  rw [fragStop] at h
  rw [ipReassChainFrag]
  exact if_pos (by dsimp only; omega)

theorem withFragment_perm {ipr : IpReassdata α} {ls rs : List (IpReassHelper α)} {p : α} (h : ipr.p = ls ++ rs) :
    (ipr.withFragment fraghdr (ls ++ fragment fraghdr p :: rs)).p.Perm (fragment fraghdr p :: ipr.p) := by
  rw [h]
  exact List.perm_middle

theorem clen_withFragment {ipr : IpReassdata α} {ls rs : List (IpReassHelper α)} {p : α} (h : ipr.p = ls ++ rs) :
    (ipr.withFragment fraghdr (ls ++ fragment fraghdr p :: rs)).clen pbufClen = ipr.clen pbufClen + pbufClen p := by
  rw [IpReassdata.clen, ((withFragment_perm h).map _).sum_eq, List.map_cons, List.sum_cons, Nat.add_comm]
  rfl

section Chain
variable {as bs : List (IpReassdata α)} {ipr : IpReassdata α} {p : α}

theorem tooLong_iff :
    (isLastFrag fraghdr && (decide (fragStop fraghdr % 2 ^ 16 < iphOffsetBytes fraghdr) ||
      decide (0xFFFF - ipHlen < fragStop fraghdr % 2 ^ 16))) = true ↔
        isLastFrag fraghdr = true ∧ 0xFFFF - ipHlen < fragStop fraghdr := by
  have hoffset := @iphOffsetBytes_lt fraghdr
  have hlen := @fragLen_lt fraghdr
  rw [Bool.and_eq_true, Bool.or_eq_true, decide_eq_true_eq, decide_eq_true_eq, fragStop, ipHlen]
  refine and_congr_right' ?_
  omega

/-- A fragment is dropped: with its datagram if that is new. -/
theorem ip4ReassChain_eq_dropped (hlist : s.reassdatagrams = as ++ ipr :: bs)
    (h : ipReassChainFrag ipr p (iphOffsetBytes fraghdr) (fragLen fraghdr) (isLastFrag fraghdr) = none ∨
      isLastFrag fraghdr = true ∧ 0xFFFF - ipHlen < fragStop fraghdr) :
    ip4ReassChain pbufClen s as.length ipr fraghdr p (iphOffsetBytes fraghdr) (fragLen fraghdr) =
      (if ipr.p.isEmpty then ⟨as ++ bs, s.pbufcount⟩ else s, [.free p], none) := by
  rw [ip4ReassChain, ← isLastFrag, ← fragStop, hlist, eraseIdx_split]
  dsimp only
  rcases h with hnone | hlong
  · rw [hnone]
    exact ite_self _
  · exact if_pos (tooLong_iff.mpr hlong)

/-- A fragment comes to its place, and completes the datagram or not. -/
theorem ip4ReassChain_eq_taken {l : List (IpReassHelper α)} {finished : Bool}
    (hlist : s.reassdatagrams = as ++ ipr :: bs)
    (hclen : (ipr.withFragment fraghdr l).clen pbufClen = ipr.clen pbufClen + pbufClen p)
    (hcount : s.pbufcount = pbufsOf pbufClen s.reassdatagrams) (hroom : s.pbufcount + pbufClen p < 2 ^ 16)
    (hshort : ¬(isLastFrag fraghdr = true ∧ 0xFFFF - ipHlen < fragStop fraghdr)) (hbound : fragStop fraghdr < 2 ^ 16)
    (h : ipReassChainFrag ipr p (iphOffsetBytes fraghdr) (fragLen fraghdr) (isLastFrag fraghdr) = some (l, finished)) :
    ip4ReassChain pbufClen s as.length ipr fraghdr p (iphOffsetBytes fraghdr) (fragLen fraghdr) =
      if finished then (⟨as ++ bs, pbufsOf pbufClen (as ++ bs)⟩, [], some (ipr.withFragment fraghdr l))
      else (⟨as ++ ipr.withFragment fraghdr l :: bs, pbufsOf pbufClen (as ++ ipr.withFragment fraghdr l :: bs)⟩, [],
        none) := by
  have hbefore : s.pbufcount = ipr.clen pbufClen + pbufsOf pbufClen (as ++ bs) := by
    rw [hcount, hlist, pbufsOf_split]
  have hafter : pbufsOf pbufClen (as ++ ipr.withFragment fraghdr l :: bs) = s.pbufcount + pbufClen p := by
    rw [pbufsOf_split, hclen]
    omega
  have hleft : (2 ^ 16 + (s.pbufcount + pbufClen p) - (ipr.clen pbufClen + pbufClen p) % 2 ^ 16) % 2 ^ 16 =
      pbufsOf pbufClen (as ++ bs) := by
    rw [Nat.mod_eq_of_lt (by omega : ipr.clen pbufClen + pbufClen p < 2 ^ 16)]
    omega
  rw [ip4ReassChain, ← isLastFrag, ← fragStop, hlist, eraseIdx_split]
  dsimp only
  rw [if_neg (mt tooLong_iff.mp hshort), h, Nat.mod_eq_of_lt hroom, Nat.mod_eq_of_lt hbound]
  dsimp only
  rw [← IpReassdata.withFragment, set_split, hclen, hafter, hleft]

/-- Why a fragment is dropped that its datagram has been found for -/
def Unfit (fraghdr : List Byte) (p : α) (ipr : IpReassdata α) : Prop :=
  0xFFFF - ipHlen < fragStop fraghdr ∨ ∃ q ∈ ipr.p, Overlap (fragment fraghdr p) q

theorem ip4ReassChain_cases (hlist : s.reassdatagrams = as ++ ipr :: bs) (hipr : FragmentsOk ipr.p)
    (hcount : s.pbufcount = pbufsOf pbufClen s.reassdatagrams) (hroom : s.pbufcount + pbufClen p < 2 ^ 16) :
    (Unfit fraghdr p ipr ∧
      ip4ReassChain pbufClen s as.length ipr fraghdr p (iphOffsetBytes fraghdr) (fragLen fraghdr) =
        (if ipr.p.isEmpty then ⟨as ++ bs, s.pbufcount⟩ else s, [.free p], none)) ∨
    ∃ ls rs finished, ipr.p = ls ++ rs ∧ FragmentsOk (ls ++ fragment fraghdr p :: rs) ∧
      (finished = true ↔ (ipr.withFragment fraghdr (ls ++ fragment fraghdr p :: rs)).Complete) ∧
      ip4ReassChain pbufClen s as.length ipr fraghdr p (iphOffsetBytes fraghdr) (fragLen fraghdr) =
        if finished then
          (⟨as ++ bs, pbufsOf pbufClen (as ++ bs)⟩, [],
            some (ipr.withFragment fraghdr (ls ++ fragment fraghdr p :: rs)))
        else
          (⟨as ++ ipr.withFragment fraghdr (ls ++ fragment fraghdr p :: rs) :: bs,
            pbufsOf pbufClen (as ++ ipr.withFragment fraghdr (ls ++ fragment fraghdr p :: rs) :: bs)⟩, [], none) := by
  by_cases hbound : fragStop fraghdr < 2 ^ 16
  · rcases @ipReassChainFrag_spec α ipr p (iphOffsetBytes fraghdr) (fragLen fraghdr) (isLastFrag fraghdr) hipr.ordered
      hipr.le hbound with ⟨hnone, hover⟩ | ⟨ls, rs, finished, hsome, hsplit, hordered, hfinished⟩
    · exact .inl ⟨.inr hover, ip4ReassChain_eq_dropped hlist (.inl hnone)⟩
    · by_cases hlong : isLastFrag fraghdr = true ∧ 0xFFFF - ipHlen < fragStop fraghdr
      · exact .inl ⟨.inl hlong.2, ip4ReassChain_eq_dropped hlist (.inr hlong)⟩
      · refine .inr ⟨ls, rs, finished, hsplit, (hsplit ▸ hipr).insert hordered (Nat.le_add_right _ _), ?_,
          ip4ReassChain_eq_taken hlist (clen_withFragment hsplit) hcount hroom hlong hbound hsome⟩
        rw [hfinished, IpReassdata.Complete, IpReassdata.withFragment, Bool.or_eq_true, or_comm]
        rfl
  · have hlong : 2 ^ 16 ≤ fragStop fraghdr := Nat.le_of_not_lt hbound
    refine .inl ⟨.inl ?_, ip4ReassChain_eq_dropped hlist (.inl (ipReassChainFrag_eq_none hlong))⟩
    rw [ipHlen]
    omega

end Chain

/-! ### The datagram of a fragment -/

section Header
variable {r : IpReassdata α}

theorem withHeader_eq (r : IpReassdata α) :
    r.withHeader fraghdr = r ∨ r.withHeader fraghdr = { r with iphdr := fraghdr } := by
  rw [IpReassdata.withHeader]
  split_ifs
  · exact .inr rfl
  · exact .inl rfl

@[simp] theorem withHeader_p : (r.withHeader fraghdr).p = r.p := by
  rcases @withHeader_eq _ fraghdr r with h | h <;> rw [h]

@[simp] theorem withHeader_lastfrag : (r.withHeader fraghdr).lastfrag = r.lastfrag := by
  rcases @withHeader_eq _ fraghdr r with h | h <;> rw [h]

@[simp] theorem withHeader_datagramLen : (r.withHeader fraghdr).datagramLen = r.datagramLen := by
  rcases @withHeader_eq _ fraghdr r with h | h <;> rw [h]

theorem withHeader_ipKey (h : r.IsOf fraghdr) : ipKey (r.withHeader fraghdr).iphdr = ipKey fraghdr := by
  rcases @withHeader_eq _ fraghdr r with heq | heq <;> rw [heq]
  exact h

@[simp] theorem withHeader_clen : (r.withHeader fraghdr).clen pbufClen = r.clen pbufClen := by
  rw [IpReassdata.clen, withHeader_p, IpReassdata.clen]

end Header

/-- The datagram that a fragment is for: the one with its addresses and its identification, or a new one -/
inductive Finds (fraghdr : List Byte) :
    (l as : List (IpReassdata α)) → (old : IpReassdata α) → (bs : List (IpReassdata α)) → Prop
  | known {as bs : List (IpReassdata α)} {r : IpReassdata α} (hr : r.IsOf fraghdr) :
      Finds fraghdr (as ++ r :: bs) as (r.withHeader fraghdr) bs
  | fresh {l : List (IpReassdata α)} (hl : ∀ r ∈ l, ¬r.IsOf fraghdr) (hlength : l.length < mempNumReassdata) :
      Finds fraghdr l [] ⟨[], fraghdr, 0, false, ipReassMaxage⟩ l

theorem Finds.pbufs {l as bs : List (IpReassdata α)} {old : IpReassdata α} (h : Finds fraghdr l as old bs) :
    pbufsOf pbufClen (as ++ old :: bs) = pbufsOf pbufClen l := by
  cases h with
  | known hr => rw [pbufsOf_split, pbufsOf_split, withHeader_clen]
  | fresh hl hlength => exact pbufsOf_cons _ _ |>.trans (Nat.zero_add _)

theorem Finds.fragments {l as bs : List (IpReassdata α)} {old : IpReassdata α} (h : Finds fraghdr l as old bs)
    (hl : ∀ r ∈ l, FragmentsOk r.p) : FragmentsOk old.p := by
  cases h with
  | known hr =>
    rw [withHeader_p]
    exact hl _ (List.mem_append_right _ List.mem_cons_self)
  | fresh hl hlength => exact fragmentsOk_nil

theorem Finds.exists_of_mem {l as bs : List (IpReassdata α)} {old : IpReassdata α} {q : IpReassHelper α}
    (h : Finds fraghdr l as old bs) (hq : q ∈ old.p) : ∃ r ∈ l, r.IsOf fraghdr ∧ q ∈ r.p := by
  cases h with
  | @known as bs r hr =>
    rw [withHeader_p] at hq
    exact ⟨r, List.mem_append_right _ List.mem_cons_self, hr, hq⟩
  | fresh hl hlength => exact absurd hq List.not_mem_nil

/-- The pbufs of the datagram that a fragment is for -/
def ownPbufs (pbufClen : α → Nat) (fraghdr : List Byte) (l : List (IpReassdata α)) : Nat :=
  pbufsOf pbufClen (l.filter fun r => ipAddressesAndIdMatch r.iphdr fraghdr)

theorem ownPbufs_of_all {l : List (IpReassdata α)} (h : ∀ r ∈ l, r.IsOf fraghdr) :
    ownPbufs pbufClen fraghdr l = pbufsOf pbufClen l := by
  rw [ownPbufs, List.filter_eq_self.mpr fun r hr => ipAddressesAndIdMatch_iff.mpr (h r hr)]

/-- The datagram of the fragment does not give way to it. -/
theorem Removed.ownPbufs_eq {s' : IpReass α} {rs : List (IpReassdata α)} (h : Removed pbufClen fraghdr s s' rs) :
    ownPbufs pbufClen fraghdr s.reassdatagrams = ownPbufs pbufClen fraghdr s'.reassdatagrams := by
  have hnil : rs.filter (fun r => ipAddressesAndIdMatch r.iphdr fraghdr) = [] :=
    List.filter_eq_nil_iff.mpr fun r hr => mt ipAddressesAndIdMatch_iff.mp (h.others r hr)
  rw [ownPbufs, pbufsOf_perm (h.perm.filter _), List.filter_append, hnil, List.nil_append, ownPbufs]

/-- Why `ip4_reass` drops a fragment: its header, or its datagram, which would have too many pbufs or bytes or holds
    a fragment that overlaps it. -/
inductive Refused (pbufClen : α → Nat) (fraghdr : List Byte) (p : α) (l : List (IpReassdata α)) : Prop
  | header (h : iphHlBytes (ofBytes fraghdr) 0 ≠ ipHlen ∨ iphLen (ofBytes fraghdr) 0 < ipHlen)
  | room (h : ipReassMaxPbufs < ownPbufs pbufClen fraghdr l + pbufClen p)
  | tooLong (h : 0xFFFF - ipHlen < fragStop fraghdr)
  | overlap {r : IpReassdata α} {q : IpReassHelper α} (hr : r ∈ l) (hof : r.IsOf fraghdr) (hq : q ∈ r.p)
      (h : Overlap (fragment fraghdr p) q)

theorem Refused.of_unfit {p : α} {l as bs : List (IpReassdata α)} {old : IpReassdata α}
    (hfinds : Finds fraghdr l as old bs) (h : Unfit fraghdr p old) : Refused pbufClen fraghdr p l := by
  rcases h with hlong | ⟨q, hq, hover⟩
  · exact .tooLong hlong
  · obtain ⟨r, hr, hof, hq⟩ := hfinds.exists_of_mem hq
    exact .overlap hr hof hq hover

/-- That other datagrams have given way has no part in it. -/
theorem Refused.of_removed {p : α} {s' : IpReass α} {rs : List (IpReassdata α)}
    (hremoved : Removed pbufClen fraghdr s s' rs) (h : Refused pbufClen fraghdr p s'.reassdatagrams) :
    Refused pbufClen fraghdr p s.reassdatagrams := by
  cases h with
  | header h => exact .header h
  | room h => exact .room (by rw [hremoved.ownPbufs_eq]; exact h)
  | tooLong h => exact .tooLong h
  | overlap hr hof hq h => exact .overlap (hremoved.sublist.subset hr) hof hq h

/-- What becomes of the datagrams and of the fragment -/
inductive Outcome (pbufClen : α → Nat) (fraghdr : List Byte) (p : α) (l : List (IpReassdata α)) :
    (l' : List (IpReassdata α)) → List (IpReassOut α) → Option (IpReassdata α) → Prop
  | dropped (h : Refused pbufClen fraghdr p l) : Outcome pbufClen fraghdr p l l [.free p] none
  | rewritten {as bs : List (IpReassdata α)} {r : IpReassdata α} (hlist : l = as ++ r :: bs) (hr : r.IsOf fraghdr)
      (h : Refused pbufClen fraghdr p l) :
      Outcome pbufClen fraghdr p l (as ++ r.withHeader fraghdr :: bs) [.free p] none
  | queued {as bs : List (IpReassdata α)} {old : IpReassdata α} {ls rs : List (IpReassHelper α)}
      (hfinds : Finds fraghdr l as old bs) (hsplit : old.p = ls ++ rs)
      (hok : FragmentsOk (ls ++ fragment fraghdr p :: rs))
      (hopen : ¬(old.withFragment fraghdr (ls ++ fragment fraghdr p :: rs)).Complete) :
      Outcome pbufClen fraghdr p l (as ++ old.withFragment fraghdr (ls ++ fragment fraghdr p :: rs) :: bs) [] none
  | finished {as bs : List (IpReassdata α)} {old : IpReassdata α} {ls rs : List (IpReassHelper α)}
      (hfinds : Finds fraghdr l as old bs) (hsplit : old.p = ls ++ rs)
      (hok : FragmentsOk (ls ++ fragment fraghdr p :: rs))
      (hcomplete : (old.withFragment fraghdr (ls ++ fragment fraghdr p :: rs)).Complete) :
      Outcome pbufClen fraghdr p l (as ++ bs) []
        (some (old.withFragment fraghdr (ls ++ fragment fraghdr p :: rs)))

/-- What holds between the calls: the count of the pbufs is right and in its bound, the datagrams are told apart, and
    each of them has a fragment and waits for another one. -/
structure ReassOk (pbufClen : α → Nat) (s : IpReass α) : Prop where
  count : s.pbufcount = pbufsOf pbufClen s.reassdatagrams
  room : s.pbufcount ≤ ipReassMaxPbufs
  length : s.reassdatagrams.length ≤ mempNumReassdata
  keys : (s.reassdatagrams.map fun r => ipKey r.iphdr).Nodup
  nonempty : ∀ r ∈ s.reassdatagrams, r.p ≠ []
  fragments : ∀ r ∈ s.reassdatagrams, FragmentsOk r.p
  opened : ∀ r ∈ s.reassdatagrams, ¬r.Complete

/-! ### One call -/

section Call
variable {p : α}

/-- The call once there is room for the fragment and its datagram has been found -/
theorem ip4ReassChain_outcome {l as bs : List (IpReassdata α)} {old : IpReassdata α}
    (hfinds : Finds fraghdr l as old bs) (hfragments : ∀ r ∈ l, FragmentsOk r.p) (hnonempty : ∀ r ∈ l, r.p ≠ [])
    (hroom : pbufsOf pbufClen l + pbufClen p ≤ ipReassMaxPbufs) :
    ∃ s' outs res, ip4ReassChain pbufClen ⟨as ++ old :: bs, pbufsOf pbufClen l⟩ as.length old fraghdr p
        (iphOffsetBytes fraghdr) (fragLen fraghdr) = (s', outs, res) ∧
      s'.pbufcount = pbufsOf pbufClen s'.reassdatagrams ∧ s'.pbufcount ≤ ipReassMaxPbufs ∧
      Outcome pbufClen fraghdr p l s'.reassdatagrams outs res := by
  have hpbufs : pbufsOf pbufClen l = old.clen pbufClen + pbufsOf pbufClen (as ++ bs) := by
    rw [← hfinds.pbufs, pbufsOf_split]
  have hmax : pbufsOf pbufClen l + pbufClen p < 2 ^ 16 := Nat.lt_of_le_of_lt hroom (by decide)
  rcases ip4ReassChain_cases (s := ⟨as ++ old :: bs, pbufsOf pbufClen l⟩) rfl (hfinds.fragments hfragments)
      hfinds.pbufs.symm hmax with ⟨hunfit, heq⟩ | ⟨ls, rs, finished, hsplit, hok, hfinished, heq⟩
  · have hrefused : Refused pbufClen fraghdr p l := .of_unfit hfinds hunfit
    have hle : pbufsOf pbufClen l ≤ ipReassMaxPbufs := Nat.le_of_add_right_le hroom
    cases hfinds with
    | @known as bs r hr =>
      have hne : (r.withHeader fraghdr).p.isEmpty = false := by
        rw [withHeader_p, List.isEmpty_eq_false_iff]
        exact hnonempty r (List.mem_append_right _ List.mem_cons_self)
      rw [hne] at heq
      exact ⟨_, _, _, heq, (Finds.known hr).pbufs.symm, hle, .rewritten rfl hr hrefused⟩
    | fresh hl hlength => exact ⟨_, _, _, heq, rfl, hle, .dropped hrefused⟩
  · by_cases hcomplete : finished = true
    · rw [if_pos hcomplete] at heq
      exact ⟨_, _, _, heq, rfl, by dsimp only; omega, .finished hfinds hsplit hok (hfinished.mp hcomplete)⟩
    · rw [if_neg hcomplete] at heq
      refine ⟨_, _, _, heq, rfl, ?_, .queued hfinds hsplit hok (mt hfinished.mpr hcomplete)⟩
      dsimp only
      rw [pbufsOf_split, clen_withFragment hsplit]
      omega

theorem findIdx_cases (fraghdr : List Byte) (l : List (IpReassdata α)) :
    (l.findIdx? (fun r => ipAddressesAndIdMatch r.iphdr fraghdr) = none ∧ ∀ r ∈ l, ¬r.IsOf fraghdr) ∨
      ∃ as r bs, l = as ++ r :: bs ∧ r.IsOf fraghdr ∧
        l.findIdx? (fun r => ipAddressesAndIdMatch r.iphdr fraghdr) = some as.length := by
  cases hfound : l.findIdx? fun r => ipAddressesAndIdMatch r.iphdr fraghdr with
  | none =>
    refine .inl ⟨rfl, fun r hr hof => ?_⟩
    have hfalse := List.findIdx?_eq_none_iff.mp hfound r hr
    rw [ipAddressesAndIdMatch_iff.mpr hof] at hfalse
    cases hfalse
  | some i =>
    obtain ⟨hi, hmatch, -⟩ := List.findIdx?_eq_some_iff_getElem.mp hfound
    obtain ⟨as, bs, hsplit, hlength, -⟩ := @List.exists_of_set _ i l[i] l hi
    exact .inr ⟨as, l[i], bs, hsplit, ipAddressesAndIdMatch_iff.mp hmatch, by rw [hlength]⟩

theorem length_le_pbufsOf (hpos : ∀ p, 0 < pbufClen p) {rs : List (IpReassdata α)} (h : ∀ r ∈ rs, r.p ≠ []) :
    rs.length ≤ pbufsOf pbufClen rs := by
  induction rs with
  | nil => exact Nat.le_refl _
  | cons r rs ih =>
    obtain ⟨hr, hrs⟩ := List.forall_mem_cons.mp h
    obtain ⟨q, qs, hq⟩ := List.exists_cons_of_ne_nil hr
    have hclen : pbufClen q.p ≤ r.clen pbufClen := by
      rw [IpReassdata.clen, hq, List.map_cons, List.sum_cons]
      exact Nat.le_add_right _ _
    have hone := hpos q.p
    have hrest := ih hrs
    rw [pbufsOf_cons, List.length_cons]
    omega

/-- There is room in the list for a new datagram, or some of the others give way to it. -/
theorem ipReassEnqueueNewDatagram_spec (hpos : ∀ p, 0 < pbufClen p)
    (hcount : s.pbufcount = pbufsOf pbufClen s.reassdatagrams) (hlength : s.reassdatagrams.length ≤ mempNumReassdata)
    (hnonempty : ∀ r ∈ s.reassdatagrams, r.p ≠ []) (hnot : ∀ r ∈ s.reassdatagrams, ¬r.IsOf fraghdr)
    (hroom : s.pbufcount + pbufClen p ≤ ipReassMaxPbufs) :
    ∃ rs s₁, ipReassEnqueueNewDatagram pbufClen s fraghdr (pbufClen p) =
        (⟨⟨[], fraghdr, 0, false, ipReassMaxage⟩ :: s₁.reassdatagrams, s₁.pbufcount⟩, rs.flatMap IpReassdata.frees,
          true) ∧
      Removed pbufClen fraghdr s s₁ rs ∧ s₁.reassdatagrams.length < mempNumReassdata := by
  rw [ipReassEnqueueNewDatagram]
  by_cases hfree : s.reassdatagrams.length < mempNumReassdata
  · exact ⟨[], s, if_pos hfree, .refl hcount, hfree⟩
  · have hone := hpos p
    have hpbufs := length_le_pbufsOf hpos hnonempty
    obtain ⟨rs, s₁, hremove, hremoved, hstop⟩ :=
      ipReassRemoveOldestDatagram_spec fraghdr (pbufClen p) hcount (Nat.lt_of_le_of_lt
        (Nat.le_of_add_right_le hroom) (by decide))
    have hlengths := hremoved.perm.length_eq
    have hle := hremoved.pbufs
    rw [List.length_append] at hlengths
    rw [mempNumReassdata] at hfree hlength
    rw [ipReassMaxPbufs] at hroom
    have henough : pbufClen p ≤ pbufsOf pbufClen rs := by
      rcases hstop with henough | hall
      · exact henough
      · -- with nothing left, all pbufs are free, at least as many as there were datagrams
        have hnil : s₁.reassdatagrams = [] :=
          List.eq_nil_iff_forall_not_mem.mpr fun r hr => hnot r (hremoved.sublist.subset hr) (hall r hr)
        rw [hnil] at hle
        have hzero : pbufsOf pbufClen ([] : List (IpReassdata α)) = 0 := rfl
        omega
    have hsome : 0 < rs.length := by
      rw [List.length_pos_iff]
      rintro rfl
      have hzero : pbufsOf pbufClen ([] : List (IpReassdata α)) = 0 := rfl
      omega
    have hless : s₁.reassdatagrams.length < mempNumReassdata := by
      rw [mempNumReassdata]
      omega
    rw [if_neg (by rw [mempNumReassdata]; exact hfree), hremove]
    exact ⟨rs, s₁, if_pos ⟨henough, hless⟩, hremoved, hless⟩

/-- The first step of a call: there is room for the fragment, or nothing is left but its own datagram. -/
theorem ip4Reass_room (hpos : ∀ p, 0 < pbufClen p) (hok : ReassOk pbufClen s) (fraghdr : List Byte) (p : α) :
    ∃ rs s₁ allowed,
      (if ipReassMaxPbufs < s.pbufcount + pbufClen p then
        let (s, outs, pbufsFreed) := ipReassRemoveOldestDatagram pbufClen s fraghdr (pbufClen p)
        (s, outs, pbufsFreed != 0 && decide (s.pbufcount + pbufClen p ≤ ipReassMaxPbufs))
      else (s, [], true)) = (s₁, rs.flatMap IpReassdata.frees, allowed) ∧
      Removed pbufClen fraghdr s s₁ rs ∧ (allowed = true → s₁.pbufcount + pbufClen p ≤ ipReassMaxPbufs) ∧
      (allowed = false → ipReassMaxPbufs < s₁.pbufcount + pbufClen p ∧ ∀ r ∈ s₁.reassdatagrams, r.IsOf fraghdr) := by
  by_cases hfull : ipReassMaxPbufs < s.pbufcount + pbufClen p
  · rw [if_pos hfull]
    obtain ⟨rs, s₁, hremove, hremoved, hstop⟩ := ipReassRemoveOldestDatagram_spec fraghdr (pbufClen p)
      hok.count (Nat.lt_of_le_of_lt hok.room (by decide))
    have hle := hremoved.pbufcount_eq hok.count
    have hone := hpos p
    have hmax := hok.room
    rw [hremove]
    refine ⟨rs, s₁, _, rfl, hremoved, fun hallowed => ?_, fun hrefused => ?_⟩
    · rw [Bool.and_eq_true, decide_eq_true_eq] at hallowed
      exact hallowed.2
    · rw [Bool.and_eq_false_iff, bne_eq_false_iff_eq, decide_eq_false_iff_not] at hrefused
      rcases hstop with henough | hall
      · omega
      · exact ⟨by omega, hall⟩
  · rw [if_neg hfull]
    exact ⟨[], s, true, rfl, .refl hok.count, fun _ => Nat.le_of_not_lt hfull, fun h => by cases h⟩

/-- What a call does: other datagrams may give way, then the fragment is dropped or comes to its place. -/
theorem ip4Reass_cases (hpos : ∀ p, 0 < pbufClen p) (hok : ReassOk pbufClen s) (fraghdr : List Byte) (p : α) :
    ∃ rs s₁ s' outs res, ip4Reass pbufClen s fraghdr p = (s', rs.flatMap IpReassdata.frees ++ outs, res) ∧
      Removed pbufClen fraghdr s s₁ rs ∧ s'.pbufcount = pbufsOf pbufClen s'.reassdatagrams ∧
      s'.pbufcount ≤ ipReassMaxPbufs ∧ Outcome pbufClen fraghdr p s₁.reassdatagrams s'.reassdatagrams outs res := by
  rw [ip4Reass]
  by_cases hhl : iphHlBytes (ofBytes fraghdr) 0 ≠ ipHlen
  · exact ⟨[], s, s, [.free p], none, if_pos hhl, .refl hok.count, hok.count, hok.room, .dropped (.header (.inl hhl))⟩
  rw [if_neg hhl]
  by_cases hlen : iphLen (ofBytes fraghdr) 0 < ipHlen
  · exact ⟨[], s, s, [.free p], none, if_pos hlen, .refl hok.count, hok.count, hok.room, .dropped (.header (.inr hlen))⟩
  rw [if_neg hlen]
  dsimp only
  obtain ⟨rs, s₁, allowed, hroom, hremoved, hallowed, hrefused⟩ := ip4Reass_room hpos hok fraghdr p
  rw [hroom]
  dsimp only
  cases allowed with
  | false =>
    obtain ⟨hfull, hall⟩ := hrefused rfl
    rw [hremoved.count, ← ownPbufs_of_all hall] at hfull
    refine ⟨rs, s₁, s₁, [.free p], none, rfl, hremoved, hremoved.count, ?_, .dropped (.room hfull)⟩
    have hle := hremoved.pbufcount_eq hok.count
    have hmax := hok.room
    omega
  | true =>
    have hfits := hallowed rfl
    have hnonempty : ∀ r ∈ s₁.reassdatagrams, r.p ≠ [] := fun r hr => hok.nonempty r (hremoved.sublist.subset hr)
    have hfragments : ∀ r ∈ s₁.reassdatagrams, FragmentsOk r.p := fun r hr =>
      hok.fragments r (hremoved.sublist.subset hr)
    rw [if_neg (by decide)]
    rcases findIdx_cases fraghdr s₁.reassdatagrams with ⟨hnone, hnot⟩ | ⟨as, r, bs, hlist, hr, hsome⟩
    · rw [hnone]
      dsimp only
      obtain ⟨rs', s₂, henqueue, hremoved', hlength⟩ := ipReassEnqueueNewDatagram_spec hpos hremoved.count
        (Nat.le_trans hremoved.sublist.length_le hok.length) hnonempty hnot hfits
      have hle := hremoved'.pbufcount_eq hremoved.count
      rw [henqueue]
      have hfinds : Finds fraghdr s₂.reassdatagrams [] ⟨[], fraghdr, 0, false, ipReassMaxage⟩ s₂.reassdatagrams :=
        .fresh (fun r hr => hnot r (hremoved'.sublist.subset hr)) hlength
      obtain ⟨s', outs, res, heq, hcount, hmax, hout⟩ := ip4ReassChain_outcome (p := p) hfinds
        (fun r hr => hfragments r (hremoved'.sublist.subset hr))
        (fun r hr => hnonempty r (hremoved'.sublist.subset hr)) (by rw [← hremoved'.count]; omega)
      refine ⟨rs ++ rs', s₂, s', outs, res, ?_, hremoved.trans hremoved', hcount, hmax, hout⟩
      rw [List.nil_append, List.length_nil, ← hremoved'.count] at heq
      rw [if_pos rfl, ← fragLen, heq, List.flatMap_append, List.append_assoc]
    · have hget : s₁.reassdatagrams[as.length]? = some r := hlist ▸ getElem?_split
      have hset : s₁.reassdatagrams.set as.length (r.withHeader fraghdr) = as ++ r.withHeader fraghdr :: bs :=
        hlist ▸ set_split _
      rw [hsome]
      dsimp only
      rw [hget]
      dsimp only
      rw [hset]
      have hfinds : Finds fraghdr s₁.reassdatagrams as (r.withHeader fraghdr) bs := hlist ▸ .known hr
      obtain ⟨s', outs, res, heq, hcount, hmax, hout⟩ := ip4ReassChain_outcome (p := p) hfinds hfragments hnonempty
        (by rw [← hremoved.count]; exact hfits)
      rw [← hremoved.count] at heq
      refine ⟨rs, s₁, s', outs, res, ?_, hremoved, hcount, hmax, hout⟩
      rw [← fragLen, heq]

end Call

end YlsFirmware
