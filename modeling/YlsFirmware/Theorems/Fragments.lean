import YlsFirmware.Lib.Pieces
import YlsFirmware.Ip4Frag
import Mathlib.Tactic.SplitIfs

/-! One datagram of the reassembly: its fragments are apart and in order, and it is complete when they have no hole. -/

namespace YlsFirmware
open Packed Pieces

variable {α : Type} {iprh : IpReassHelper α} {prev : Option (IpReassHelper α)} {l r : List (IpReassHelper α)}

abbrev FragmentsOrdered (l : List (IpReassHelper α)) : Prop := Ordered IpReassHelper.start IpReassHelper.stop l

abbrev FragmentsChained (o : Nat) (l : List (IpReassHelper α)) : Prop :=
  Chained IpReassHelper.start IpReassHelper.stop o l

/-- Two fragments have a byte in common, or the same start. -/
def Overlap (a b : IpReassHelper α) : Prop := a.start = b.start ∨ a.start < b.stop ∧ b.start < a.stop

/-- No hole up to the end of a list that follows `prev` -/
def ChainedAfter : Option (IpReassHelper α) → List (IpReassHelper α) → Prop
  | none, [] => True
  | none, h :: t => FragmentsChained h.stop t
  | some pr, l => FragmentsChained pr.stop l

theorem follows_iff {h : IpReassHelper α} : follows prev h = true ↔ ∀ pr ∈ prev, h.start = pr.stop := by
  cases prev with
  | none => exact ⟨(fun _ pr hpr => by cases hpr), fun _ => rfl⟩
  | some pr =>
    rw [follows, beq_iff_eq]
    exact ⟨fun h pr' hpr' => Option.some.inj hpr' ▸ h.symm, fun h => (h pr rfl).symm⟩

theorem chainedAfter_cons {h : IpReassHelper α} {t : List (IpReassHelper α)} :
    ChainedAfter prev (h :: t) ↔ follows prev h = true ∧ ChainedAfter (some h) t := by
  rw [follows_iff]
  cases prev with
  | none => exact ⟨fun hc => ⟨(fun pr hpr => by cases hpr), hc⟩, fun hc => hc.2⟩
  | some pr => exact ⟨fun hc => ⟨fun pr' hpr' => Option.some.inj hpr' ▸ hc.1, hc.2⟩, fun hc => ⟨hc.1 pr rfl, hc.2⟩⟩

/-- What the loop does: the fragment comes to its place, unless it overlaps one that is there. -/
theorem ipReassInsert_spec (hl : FragmentsOrdered l) (hle : ∀ q ∈ l, q.start ≤ q.stop) (hstop : iprh.start ≤ iprh.stop)
    (hprev : ∀ pr ∈ prev, pr.stop ≤ iprh.start) (valid : Bool) :
    (ipReassInsert iprh prev l valid = none ∧ ∃ q ∈ l, Overlap iprh q) ∨
      ∃ as v r, ipReassInsert iprh prev l valid = some (as ++ iprh :: r, v, r) ∧ l = as ++ r ∧
        (∀ a ∈ as, a.stop ≤ iprh.start ∧ a.start < iprh.start) ∧
        (∀ b ∈ r, iprh.stop ≤ b.start ∧ iprh.start < b.start) ∧
        (v = true ↔ valid = true ∧ ChainedAfter prev (as ++ [iprh])) := by
  induction l generalizing prev valid with
  | nil =>
    refine .inr ⟨[], _, [], rfl, rfl, fun a ha => absurd ha List.not_mem_nil, fun b hb => absurd hb List.not_mem_nil, ?_⟩
    rw [Bool.and_eq_true, List.nil_append, chainedAfter_cons]
    exact and_congr_right' ⟨fun h => ⟨h, trivial⟩, fun h => h.1⟩
  | cons q qs ih =>
    obtain ⟨hq, hqs⟩ := List.pairwise_cons.mp hl
    have hqle := hle q List.mem_cons_self
    rw [ipReassInsert]
    by_cases hlt : iprh.start < q.start
    · rw [if_pos hlt]
      have hnot : startsInside iprh prev = false := by
        cases prev with
        | none => rfl
        | some pr => exact decide_eq_false (Nat.not_lt.mpr (hprev pr rfl))
      rw [hnot, Bool.false_or]
      by_cases hover : q.start < iprh.stop
      · rw [decide_eq_true hover, if_pos rfl]
        exact .inl ⟨rfl, q, List.mem_cons_self, .inr ⟨Nat.lt_of_lt_of_le hlt hqle, hover⟩⟩
      · rw [decide_eq_false hover, if_neg Bool.false_ne_true]
        have hbefore : iprh.stop ≤ q.start := Nat.le_of_not_lt hover
        refine .inr ⟨[], _, q :: qs, rfl, rfl, fun a ha => absurd ha List.not_mem_nil, ?_, ?_⟩
        · refine List.forall_mem_cons.mpr ⟨⟨hbefore, hlt⟩, fun b hb => ?_⟩
          obtain ⟨-, hqb⟩ := hq b hb
          exact ⟨Nat.le_trans hbefore (Nat.le_of_lt hqb), Nat.lt_trans hlt hqb⟩
        · rw [Bool.and_eq_true, List.nil_append, chainedAfter_cons]
          exact and_congr_right' ⟨fun h => ⟨h, trivial⟩, fun h => h.1⟩
    · rw [if_neg hlt]
      by_cases heq : iprh.start = q.start
      · rw [if_pos heq]
        exact .inl ⟨rfl, q, List.mem_cons_self, .inl heq⟩
      · rw [if_neg heq]
        have hafter : q.start < iprh.start := by omega
        by_cases hover : iprh.start < q.stop
        · rw [if_pos hover]
          exact .inl ⟨rfl, q, List.mem_cons_self, .inr ⟨hover, Nat.lt_of_lt_of_le hafter hstop⟩⟩
        · rw [if_neg hover]
          -- the loop goes on behind `q`
          have hbehind : q.stop ≤ iprh.start := Nat.le_of_not_lt hover
          have hnext := ih hqs (fun x hx => hle x (List.mem_cons_of_mem _ hx))
            (fun pr hpr => Option.some.inj hpr ▸ hbehind) (valid && follows prev q)
          rcases hnext with ⟨hnone, x, hx, hxover⟩ | ⟨as, v, r, hsome, rfl, has, hr, hv⟩
          · rw [hnone]
            exact .inl ⟨rfl, x, List.mem_cons_of_mem _ hx, hxover⟩
          · rw [hsome]
            refine .inr ⟨q :: as, v, r, rfl, rfl, List.forall_mem_cons.mpr ⟨⟨hbehind, hafter⟩, has⟩, hr, ?_⟩
            rw [hv, Bool.and_eq_true, List.cons_append, chainedAfter_cons, and_assoc]

theorem ipReassNoHoles_iff {h : IpReassHelper α} : ipReassNoHoles h l = true ↔ FragmentsChained h.stop l := by
  induction l generalizing h with
  | nil => exact ⟨fun _ => trivial, fun _ => rfl⟩
  | cons q qs ih =>
    rw [ipReassNoHoles, Bool.and_eq_true, beq_iff_eq, ih]
    exact and_congr_left' eq_comm

/-- A fragment that is taken comes to its place, and completes the datagram if the last one is there and there is no
    hole; one that is dropped overlaps another one. -/
theorem ipReassChainFrag_spec {ipr : IpReassdata α} {newP : α} {offset len : Nat} {isLast : Bool}
    (hl : FragmentsOrdered ipr.p) (hle : ∀ q ∈ ipr.p, q.start ≤ q.stop) (hlen : offset + len < 2 ^ 16) :
    (ipReassChainFrag ipr newP offset len isLast = none ∧ ∃ q ∈ ipr.p, Overlap ⟨newP, offset, offset + len⟩ q) ∨
      ∃ as r finished, ipReassChainFrag ipr newP offset len isLast =
          some (as ++ ⟨newP, offset, offset + len⟩ :: r, finished) ∧ ipr.p = as ++ r ∧
        FragmentsOrdered (as ++ ⟨newP, offset, offset + len⟩ :: r) ∧
        (finished = true ↔ (isLast = true ∨ ipr.lastfrag = true) ∧
          FragmentsChained 0 (as ++ ⟨newP, offset, offset + len⟩ :: r)) := by
  rw [ipReassChainFrag, Nat.mod_eq_of_lt hlen]
  dsimp only
  rw [if_neg (Nat.not_lt.mpr (Nat.le_add_right _ _))]
  generalize hiprh : (⟨newP, offset, offset + len⟩ : IpReassHelper α) = iprh
  have hstop : iprh.start ≤ iprh.stop := by
    rw [← hiprh]
    exact Nat.le_add_right _ _
  rcases @ipReassInsert_spec α iprh none ipr.p hl hle hstop (fun pr hpr => by cases hpr) true with
    ⟨hnone, q, hq, hover⟩ | ⟨as, v, r, hsome, hsplit, has, hr, hv⟩
  · rw [hnone]
    exact .inl ⟨rfl, q, hq, hover⟩
  · rw [hsome]
    refine .inr ⟨as, r, _, rfl, hsplit, (hsplit ▸ hl).insert has hr, ?_⟩
    have hchain : FragmentsChained 0 (as ++ iprh :: r) ↔
        FragmentsChained 0 (as ++ [iprh]) ∧ FragmentsChained iprh.stop r := by
      rw [List.append_cons, FragmentsChained, chained_append, endOf_concat]
    rw [hchain, Bool.and_eq_true, Bool.and_eq_true, Bool.and_eq_true, Bool.or_eq_true, ipReassNoHoles_iff, hv]
    cases as with
    | nil => simp [FragmentsChained, Chained, ChainedAfter, and_assoc]
    | cons a as => simp [FragmentsChained, Chained, ChainedAfter, and_assoc, and_left_comm]

end YlsFirmware
