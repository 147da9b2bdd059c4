import YlsFirmware.Theorems.ReassemblyRuns

/-! A datagram that is sent in fragments comes out of the reassembly as it was sent. -/

namespace YlsFirmware
open Packed Pieces Machine

variable {α : Type} {pbufClen : α → Nat} {payload : α → List Byte} {data : List Byte} {s : IpReass α}
  {fraghdr : List Byte} {p : α} {r : IpReassdata α}

/-- A fragment of the data: some bytes of them at their place, without `IP_MF` exactly if they are the last ones -/
structure FragmentOf (payload : α → List Byte) (data fraghdr : List Byte) (p : α) : Prop where
  stop : fragStop fraghdr ≤ data.length
  payload : payload p = (data.drop (iphOffsetBytes fraghdr)).take (fragLen fraghdr)
  last : isLastFrag fraghdr = true ↔ fragStop fraghdr = data.length

theorem lanFragments_fragmentOf : ∀ f ∈ lanFragments, FragmentOf id lanData f.1 f.2 := by
  intro f hf
  rcases List.mem_cons.mp hf with rfl | hf
  · exact ⟨by decide, by decide, by decide⟩
  · obtain rfl := List.mem_singleton.mp hf
    exact ⟨by decide, by decide, by decide⟩

/-- What a datagram holds of the data -/
structure PiecesOf (payload : α → List Byte) (data : List Byte) (r : IpReassdata α) : Prop where
  piece : ∀ q ∈ r.p, q.stop ≤ data.length ∧ payload q.p = (data.drop q.start).take (q.stop - q.start)
  last : r.lastfrag = true → r.datagramLen = data.length ∧ ∃ q ∈ r.p, q.stop = data.length

theorem PiecesOf.withFragment {ls rs : List (IpReassHelper α)} (h : PiecesOf payload data r)
    (hnew : FragmentOf payload data fraghdr p) (hsplit : r.p = ls ++ rs) :
    PiecesOf payload data (r.withFragment fraghdr (ls ++ fragment fraghdr p :: rs)) := by
  have hperm := @withFragment_perm α fraghdr r ls rs p hsplit
  refine ⟨fun q hq => ?_, fun hlast => ?_⟩
  · rcases List.mem_cons.mp (hperm.subset hq) with rfl | hq
    · refine ⟨hnew.stop, ?_⟩
      rw [fragment, hnew.payload, fragStop, Nat.add_sub_cancel_left]
    · exact h.piece q hq
  · by_cases hthis : isLastFrag fraghdr = true
    · refine ⟨?_, fragment fraghdr p, hperm.mem_iff.mpr List.mem_cons_self, hnew.last.mp hthis⟩
      rw [IpReassdata.withFragment, if_pos hthis]
      exact hnew.last.mp hthis
    · rw [IpReassdata.withFragment, Bool.or_eq_true, or_iff_left hthis] at hlast
      obtain ⟨hlen, q, hq, hstop⟩ := h.last hlast
      refine ⟨?_, q, hperm.mem_iff.mpr (List.mem_cons_of_mem _ hq), hstop⟩
      rw [IpReassdata.withFragment, if_neg hthis]
      exact hlen

/-- A datagram that is complete holds all the data. -/
theorem PiecesOf.eq_data (h : PiecesOf payload data r) (hok : FragmentsOk r.p) (hcomplete : r.Complete) :
    (r.p.flatMap fun q => payload q.p) = data ∧ r.datagramLen = data.length := by
  obtain ⟨hlast, hchained⟩ := hcomplete
  obtain ⟨hlen, q, hq, hstop⟩ := h.last hlast
  have hflat := hchained.flatMap_eq (f := fun q => payload q.p) hok.le fun q hq => (h.piece q hq).2
  -- the pieces end where the last fragment does
  have hend : data.length ≤ endOf IpReassHelper.stop 0 r.p := by
    rw [← hstop]
    exact hok.ordered.le_endOf hok.le hq
  rw [hflat.2, List.drop_zero, Nat.sub_zero]
  exact ⟨List.take_of_length_le hend, hlen⟩

/-- What is there of a datagram that is sent in fragments -/
def OnlyPieces (payload : α → List Byte) (data : List Byte) (key : BitVec 32 × BitVec 32 × BitVec 16)
    (l : List (IpReassdata α)) : Prop :=
  ∀ r ∈ l, ipKey r.iphdr = key → PiecesOf payload data r

section
variable {key : BitVec 32 × BitVec 32 × BitVec 16}

theorem Finds.piecesOf {l as bs : List (IpReassdata α)} {old : IpReassdata α} (h : Finds fraghdr l as old bs)
    (hl : OnlyPieces payload data (ipKey fraghdr) l) : PiecesOf payload data old := by
  cases h with
  | @known as bs r hr =>
    have hr' := hl r (List.mem_append_right _ List.mem_cons_self) hr
    exact ⟨by rw [withHeader_p]; exact hr'.piece, by
      rw [withHeader_lastfrag, withHeader_datagramLen, withHeader_p]; exact hr'.last⟩
  | fresh hnot hlength => exact ⟨fun q hq => absurd hq List.not_mem_nil, fun h => by cases h⟩

theorem Outcome.pieces {l l' : List (IpReassdata α)} {outs : List (IpReassOut α)} {res : Option (IpReassdata α)}
    (h : Outcome pbufClen fraghdr p l l' outs res) (hl : OnlyPieces payload data key l)
    (hnew : ipKey fraghdr = key → FragmentOf payload data fraghdr p) :
    OnlyPieces payload data key l' ∧
      ∀ r ∈ res, ipKey r.iphdr = key → PiecesOf payload data r ∧ FragmentsOk r.p ∧ r.Complete := by
  cases h with
  | dropped h => exact ⟨hl, fun r hr => by cases hr⟩
  | @rewritten as bs r hlist hr h =>
    have hfinds : Finds fraghdr l as (r.withHeader fraghdr) bs := hlist ▸ .known hr
    refine ⟨fun x hx hkey => ?_, fun r hr => by cases hr⟩
    rcases mem_split hx with rfl | hx
    · rw [withHeader_ipKey hr] at hkey
      exact hfinds.piecesOf (hkey ▸ hl)
    · exact hl x (hfinds.sublist.subset hx) hkey
  | queued hfinds hsplit hok hopen =>
    refine ⟨fun x hx hkey => ?_, fun r hr => by cases hr⟩
    rcases mem_split hx with rfl | hx
    · have hfrag : ipKey fraghdr = key := hfinds.isOf.symm.trans hkey
      exact (hfinds.piecesOf (hfrag ▸ hl)).withFragment (hnew hfrag) hsplit
    · exact hl x (hfinds.sublist.subset hx) hkey
  | finished hfinds hsplit hok hcomplete =>
    refine ⟨fun x hx hkey => hl x (hfinds.sublist.subset hx) hkey, fun r hr hkey => ?_⟩
    obtain rfl := Option.some.inj hr
    have hfrag : ipKey fraghdr = key := hfinds.isOf.symm.trans hkey
    exact ⟨(hfinds.piecesOf (hfrag ▸ hl)).withFragment (hnew hfrag) hsplit, hok, hcomplete⟩

/-- The fragments of a run that have a key are those of the data. -/
def FragmentsSent (payload : α → List Byte) (data : List Byte) (key : BitVec 32 × BitVec 32 × BitVec 16)
    (evs : List (ReassEvent α)) : Prop :=
  ∀ fraghdr p, .input fraghdr p ∈ evs → ipKey fraghdr = key → FragmentOf payload data fraghdr p

theorem pieces_step (hpos : ∀ p, 0 < pbufClen p) (hok : ReassOk pbufClen s) {e : ReassEvent α}
    (hl : OnlyPieces payload data key s.reassdatagrams) (hsent : FragmentsSent payload data key [e]) :
    OnlyPieces payload data key (reassStep pbufClen s e).1.reassdatagrams ∧
      ∀ r ∈ (reassStep pbufClen s e).2.2, ipKey r.iphdr = key →
        PiecesOf payload data r ∧ FragmentsOk r.p ∧ r.Complete := by
  cases e with
  | input fraghdr p =>
    obtain ⟨rs, s₁, s', outs, res, heq, hremoved, -, -, hout⟩ := ip4Reass_cases hpos hok fraghdr p
    rw [reassStep, heq]
    exact hout.pieces (fun r hr => hl r (hremoved.sublist.subset hr)) (hsent fraghdr p List.mem_cons_self)
  | tmr =>
    obtain ⟨heq, -⟩ := ipReassTmr_spec hok.count (Nat.lt_of_le_of_lt hok.room (by decide))
    rw [reassStep, heq]
    refine ⟨fun x hx hkey => ?_, fun r hr => by cases hr⟩
    obtain ⟨r, hr, rfl⟩ := mem_ticked hx
    exact ⟨(hl r hr hkey).piece, (hl r hr hkey).last⟩

theorem pieces_run (hpos : ∀ p, 0 < pbufClen p) (hok : ReassOk pbufClen s) (evs : List (ReassEvent α))
    (hnone : ∀ r ∈ s.reassdatagrams, ipKey r.iphdr ≠ key) (hsent : FragmentsSent payload data key evs) :
    OnlyPieces payload data key (reassFrom pbufClen s evs).reassdatagrams ∧
      ∀ r ∈ reassembled pbufClen s evs, ipKey r.iphdr = key →
        (r.p.flatMap fun q => payload q.p) = data ∧ r.datagramLen = data.length := by
  induction evs using List.reverseRecOn with
  | nil => exact ⟨fun r hr hkey => absurd hkey (hnone r hr), fun r hr => absurd hr List.not_mem_nil⟩
  | append_singleton evs e ih =>
    obtain ⟨honly, hdata⟩ := ih fun fraghdr p hmem => hsent fraghdr p (List.mem_append_left _ hmem)
    obtain ⟨honly', hres⟩ := pieces_step hpos (hok.reassFrom hpos evs) honly
      fun fraghdr p hmem => hsent fraghdr p (List.mem_append_right _ hmem)
    rw [reassFrom_concat, reassembled_concat]
    refine ⟨honly', fun r hr hkey => ?_⟩
    rcases List.mem_append.mp hr with hr | hr
    · exact hdata r hr hkey
    · obtain ⟨hpieces, hfragments, hcomplete⟩ := hres r (Option.mem_toList.mp hr) hkey
      exact hpieces.eq_data hfragments hcomplete

/-- If all fragments with some addresses and an identification are cut from the same data, whatever else arrives and
    whenever the timer comes, a datagram that is handed over with them has exactly the data. -/
theorem reassembled_eq_data (hpos : ∀ p, 0 < pbufClen p) (evs evs' : List (ReassEvent α))
    (hnone : ∀ r ∈ (reassRun pbufClen evs).reassdatagrams, ipKey r.iphdr ≠ key)
    (hsent : FragmentsSent payload data key evs') :
    ∀ r ∈ reassembled pbufClen (reassRun pbufClen evs) evs', ipKey r.iphdr = key →
      (r.p.flatMap fun q => payload q.p) = data ∧ r.datagramLen = data.length :=
  (pieces_run hpos (reassOk_run hpos evs) evs' hnone hsent).2

/-- A fragment of another datagram and the timer come between. -/
theorem reassembled_eq_data_between :
    ∃ r, reassembled (fun _ => 1) (reassRun (fun _ => 1) [])
        [arrival lanFragments[1], .input (lanHeader 28#8 2#8 0x20#8 0#8) [], .tmr, arrival lanFragments[0]] = [r] ∧
      (r.p.flatMap fun q => q.p) = lanData ∧ r.datagramLen = lanData.length := by
  have hsent : FragmentsSent id lanData (ipKey (lanHeader 0#8 1#8 0#8 0#8))
      [arrival lanFragments[1], .input (lanHeader 28#8 2#8 0x20#8 0#8) [], .tmr, arrival lanFragments[0]] := by
    intro fraghdr p hmem hkey
    rcases List.mem_cons.mp hmem with heq | hmem
    · cases heq
      exact lanFragments_fragmentOf lanFragments[1] (List.getElem_mem _)
    rcases List.mem_cons.mp hmem with heq | hmem
    · cases heq
      exact absurd hkey (by decide)
    rcases List.mem_cons.mp hmem with heq | hmem
    · cases heq
    · cases List.mem_singleton.mp hmem
      exact lanFragments_fragmentOf lanFragments[0] (List.getElem_mem _)
  have hdata := @reassembled_eq_data (List Byte) (fun _ => 1) id lanData _ (fun _ => Nat.one_pos) [] _
    (fun r hr => absurd hr List.not_mem_nil) hsent
  exact ⟨_, rfl, hdata _ List.mem_cons_self rfl⟩

end

/-! ### Any order -/

/-- The piece of the data that is in a fragment -/
def pieceOf (f : List Byte × α) : IpReassHelper α := fragment f.1 f.2

/-- A datagram cut into fragments, in the order of the data -/
structure Cut (payload : α → List Byte) (data : List Byte) (key : BitVec 32 × BitVec 32 × BitVec 16)
    (fs : List (List Byte × α)) : Prop where
  key : ∀ f ∈ fs, ipKey f.1 = key
  header : ∀ f ∈ fs, iphHlBytes (ofBytes f.1) 0 = ipHlen ∧ ipHlen < iphLen (ofBytes f.1) 0
  piece : ∀ f ∈ fs, FragmentOf payload data f.1 f.2
  chained : FragmentsChained 0 (fs.map pieceOf)
  whole : endOf IpReassHelper.stop 0 (fs.map pieceOf) = data.length

/-- What has arrived of a datagram is in the list, and nothing else with its key. -/
structure Gathered (key : BitVec 32 × BitVec 32 × BitVec 16) (l : List (IpReassdata α))
    (fs : List (List Byte × α)) : Prop where
  pieces : ∀ r ∈ l, ipKey r.iphdr = key →
    r.p.Perm (fs.map pieceOf) ∧ (r.lastfrag = true ↔ ∃ f ∈ fs, isLastFrag f.1 = true)
  listed : fs ≠ [] → ∃ r ∈ l, ipKey r.iphdr = key

section
variable {key : BitVec 32 × BitVec 32 × BitVec 16} {cut fs rest : List (List Byte × α)} {f : List Byte × α}

theorem Overlap.symm {a b : IpReassHelper α} (h : Overlap a b) : Overlap b a :=
  h.imp Eq.symm And.symm

theorem Cut.start_lt (h : Cut payload data key cut) (hf : f ∈ cut) : (pieceOf f).start < (pieceOf f).stop := by
  have hlen := (h.header f hf).2
  show iphOffsetBytes f.1 < iphOffsetBytes f.1 + (iphLen (ofBytes f.1) 0 - ipHlen)
  omega

theorem Cut.forall_lt (h : Cut payload data key cut) : ∀ q ∈ cut.map pieceOf, q.start < q.stop := by
  intro q hq
  obtain ⟨f, hf, rfl⟩ := List.mem_map.mp hq
  exact h.start_lt hf

/-- No two fragments of a cut overlap, in whatever order they are. -/
theorem Cut.apart (h : Cut payload data key cut) (hperm : fs.Perm cut) :
    (fs.map pieceOf).Pairwise fun a b => ¬Overlap a b := by
  have hpairs : (cut.map pieceOf).Pairwise fun a b => ¬Overlap a b :=
    (h.chained.ordered h.forall_lt).1.imp fun {a b} hab hover => by
      rcases hover with heq | ⟨-, hover⟩
      · exact absurd (heq ▸ hab.2) (Nat.lt_irrefl _)
      · exact absurd hover (Nat.not_lt.mpr hab.1)
  exact ((hperm.map pieceOf).pairwise_iff fun h h' => h h'.symm).mpr hpairs

theorem Gathered.removed {s' : IpReass α} {rs : List (IpReassdata α)} (h : Gathered (ipKey fraghdr) s.reassdatagrams fs)
    (hremoved : Removed pbufClen fraghdr s s' rs) : Gathered (ipKey fraghdr) s'.reassdatagrams fs where
  pieces r hr := h.pieces r (hremoved.sublist.subset hr)
  listed hne := by
    obtain ⟨r, hr, hkey⟩ := h.listed hne
    rcases List.mem_append.mp (hremoved.perm.subset hr) with hr | hr
    · exact absurd hkey (hremoved.others r hr)
    · exact ⟨r, hr, hkey⟩

theorem Finds.gathered {l as bs : List (IpReassdata α)} {old : IpReassdata α} (h : Finds fraghdr l as old bs)
    (hl : Gathered (ipKey fraghdr) l fs) :
    old.p.Perm (fs.map pieceOf) ∧ (old.lastfrag = true ↔ ∃ f ∈ fs, isLastFrag f.1 = true) := by
  cases h with
  | @known as bs r hr =>
    rw [withHeader_p, withHeader_lastfrag]
    exact hl.pieces r (List.mem_append_right _ List.mem_cons_self) hr
  | fresh hnot hlength =>
    have hnil : fs = [] := by
      by_contra hne
      obtain ⟨r, hr, hkey⟩ := hl.listed hne
      exact hnot r hr hkey
    subst hnil
    exact ⟨List.Perm.refl _, (fun h => by cases h), fun ⟨f, hf, _⟩ => absurd hf List.not_mem_nil⟩

theorem Finds.others {l as bs : List (IpReassdata α)} {old : IpReassdata α} (h : Finds fraghdr l as old bs)
    (hl : (l.map fun r => ipKey r.iphdr).Nodup) : ∀ x ∈ as ++ bs, ¬x.IsOf fraghdr := by
  intro x hx hof
  have hkeys := h.keys hl
  rw [List.map_append, List.map_cons, List.nodup_middle, ← List.map_append] at hkeys
  exact (List.nodup_cons.mp hkeys).1 (List.mem_map.mpr ⟨x, hx, hof.trans h.isOf.symm⟩)

/-- A datagram with the fragments of a cut is complete once all of them are there. -/
theorem Cut.complete_iff {l : List (IpReassHelper α)} (h : Cut payload data key cut)
    (hperm : (fs ++ rest).Perm cut) (hne : fs ≠ []) (hl : l.Perm (fs.map pieceOf)) (hok : FragmentsOk l)
    (hlast : r.lastfrag = true ↔ ∃ f ∈ fs, isLastFrag f.1 = true) (hr : r.p = l) : r.Complete ↔ rest = [] := by
  have hmem : ∀ f ∈ fs, f ∈ cut := fun f hf => hperm.subset (List.mem_append_left _ hf)
  constructor
  · rintro ⟨hlastfrag, hchained⟩
    rw [hr] at hchained
    obtain ⟨f, hf, hthis⟩ := hlast.mp hlastfrag
    have hstop : fragStop f.1 = data.length := (h.piece f (hmem f hf)).last.mp hthis
    have hend : data.length ≤ endOf IpReassHelper.stop 0 l := by
      rw [← hstop]
      exact hok.ordered.le_endOf hok.le (hl.mem_iff.mpr (List.mem_map_of_mem (f := pieceOf) hf))
    -- a fragment that has not arrived would lie in one that has
    cases rest with
    | nil => rfl
    | cons g rest =>
      have hg : g ∈ cut := hperm.subset (List.mem_append_right _ List.mem_cons_self)
      have hgstop : fragStop g.1 ≤ data.length := (h.piece g hg).stop
      have hglen : (pieceOf g).start < (pieceOf g).stop := h.start_lt hg
      obtain ⟨q, hq, hle, hlt⟩ := hchained.covers (Nat.zero_le (pieceOf g).start)
        (Nat.lt_of_lt_of_le hglen (Nat.le_trans hgstop hend))
      have hpairs := h.apart hperm
      rw [List.map_append] at hpairs
      exact absurd (Or.inr ⟨Nat.lt_of_le_of_lt hle hglen, hlt⟩)
        ((List.pairwise_append.mp hpairs).2.2 q (hl.subset hq) (pieceOf g) List.mem_cons_self)
  · rintro rfl
    rw [List.append_nil] at hperm
    have hsame : l = cut.map pieceOf :=
      hok.ordered.eq_of_mem_iff (h.chained.ordered h.forall_lt).1 fun x =>
        (hl.trans (hperm.map pieceOf)).mem_iff
    have hcut : cut.map pieceOf ≠ [] := by
      intro hnil
      rw [List.map_eq_nil_iff] at hnil
      rw [hnil] at hperm
      exact hne hperm.eq_nil
    refine ⟨hlast.mpr ?_, by rw [hr, hsame]; exact h.chained⟩
    obtain ⟨q, hq, hend⟩ := @endOf_mem _ IpReassHelper.stop 0 _ hcut
    obtain ⟨f, hf, rfl⟩ := List.mem_map.mp hq
    exact ⟨f, hperm.mem_iff.mpr hf, (h.piece f hf).last.mpr (hend.symm.trans h.whole)⟩

/-- There is one datagram at most for a fragment. -/
theorem own_cases {l : List (IpReassdata α)} (hkeys : (l.map fun r => ipKey r.iphdr).Nodup)
    (hall : ∀ r ∈ l, r.IsOf fraghdr) : l = [] ∨ ∃ r, l = [r] := by
  rcases l with _ | ⟨r, _ | ⟨r', l⟩⟩
  · exact .inl rfl
  · exact .inr ⟨r, rfl⟩
  · have hr := hall r List.mem_cons_self
    have hr' := hall r' (List.mem_cons_of_mem _ List.mem_cons_self)
    exact absurd (List.mem_map.mpr ⟨r', List.mem_cons_self, hr'.trans hr.symm⟩) (List.nodup_cons.mp hkeys).1

/-- The datagram has the pbufs of the fragments that have arrived. -/
theorem Gathered.ownPbufs_le {l : List (IpReassdata α)} (pbufClen : α → Nat) (h : Gathered (ipKey fraghdr) l fs)
    (hkeys : (l.map fun r => ipKey r.iphdr).Nodup) :
    ownPbufs pbufClen fraghdr l ≤ (fs.map fun f => pbufClen f.2).sum := by
  have hown : ∀ r ∈ l.filter fun r => ipAddressesAndIdMatch r.iphdr fraghdr, r ∈ l ∧ r.IsOf fraghdr := fun r hr =>
    (List.mem_filter.mp hr).imp_right ipAddressesAndIdMatch_iff.mp
  rcases own_cases ((List.filter_sublist.map _).nodup hkeys) fun r hr => (hown r hr).2 with hnil | ⟨r, hone⟩
  · rw [ownPbufs, hnil]
    exact Nat.zero_le _
  · obtain ⟨hr, hof⟩ := hown r (hone ▸ List.mem_cons_self)
    rw [ownPbufs, hone, pbufsOf_cons, IpReassdata.clen, ((h.pieces r hr hof).1.map _).sum_eq, List.map_map]
    exact Nat.le_refl _

/-- A fragment of a cut is not dropped, if all of them have room together. -/
theorem Cut.not_refused {l : List (IpReassdata α)} (h : Cut payload data key cut) (hperm : (fs ++ f :: rest).Perm cut)
    (hroom : (cut.map fun f => pbufClen f.2).sum ≤ ipReassMaxPbufs) (hlen : data.length ≤ 0xFFFF - ipHlen)
    (hkeys : (l.map fun r => ipKey r.iphdr).Nodup) (hl : Gathered (ipKey f.1) l fs) :
    ¬Refused pbufClen f.1 f.2 l := by
  have hf : f ∈ cut := hperm.subset (List.mem_append_right _ List.mem_cons_self)
  intro hrefused
  cases hrefused with
  | header hheader =>
    obtain ⟨hhl, hshort⟩ := h.header f hf
    rcases hheader with hheader | hheader
    · exact hheader hhl
    · omega
  | room hfull =>
    have hsum := ((hperm.map fun f => pbufClen f.2).sum_eq).symm
    rw [List.map_append, List.map_cons, List.sum_append, List.sum_cons] at hsum
    have hown := hl.ownPbufs_le pbufClen hkeys
    omega
  | tooLong hlong =>
    have hstop := (h.piece f hf).stop
    omega
  | @overlap r q hr hof hq hover =>
    have hpairs := h.apart hperm
    rw [List.map_append] at hpairs
    exact (List.pairwise_append.mp hpairs).2.2 q ((hl.pieces r hr hof).1.subset hq) (pieceOf f) List.mem_cons_self
      hover.symm

/-- A fragment of a cut comes to the others, and the last one to arrive completes the datagram. -/
theorem Cut.step (hpos : ∀ p, 0 < pbufClen p) (hok : ReassOk pbufClen s) (h : Cut payload data key cut)
    (hperm : (fs ++ f :: rest).Perm cut) (hroom : (cut.map fun f => pbufClen f.2).sum ≤ ipReassMaxPbufs)
    (hlen : data.length ≤ 0xFFFF - ipHlen) (hg : Gathered key s.reassdatagrams fs) :
    (rest ≠ [] ∧ (reassStep pbufClen s (arrival f)).2.2 = none ∧
        Gathered key (reassStep pbufClen s (arrival f)).1.reassdatagrams (fs ++ [f])) ∨
      rest = [] ∧ ∃ r, (reassStep pbufClen s (arrival f)).2.2 = some r ∧ ipKey r.iphdr = key := by
  obtain rfl := h.key f (hperm.subset (List.mem_append_right _ List.mem_cons_self))
  obtain ⟨rs, s₁, s', outs, res, heq, hremoved, -, -, hout⟩ := ip4Reass_cases hpos hok f.1 f.2
  rw [arrival, reassStep, heq]
  dsimp only
  have hkeys := (hok.removed hremoved).keys
  have hg₁ := hg.removed hremoved
  have hnot : ¬Refused pbufClen f.1 f.2 s₁.reassdatagrams := h.not_refused hperm hroom hlen hkeys hg₁
  have hperm' : ((fs ++ [f]) ++ rest).Perm cut := by rwa [List.append_assoc]
  -- the datagram with the fragment has all that have arrived
  have hnew : ∀ {as bs : List (IpReassdata α)} {old : IpReassdata α} {ls rs : List (IpReassHelper α)},
      Finds f.1 s₁.reassdatagrams as old bs → old.p = ls ++ rs → FragmentsOk (ls ++ fragment f.1 f.2 :: rs) →
        (old.withFragment f.1 (ls ++ fragment f.1 f.2 :: rs)).p.Perm ((fs ++ [f]).map pieceOf) ∧
          ((old.withFragment f.1 (ls ++ fragment f.1 f.2 :: rs)).lastfrag = true ↔
            ∃ g ∈ fs ++ [f], isLastFrag g.1 = true) ∧
          ((old.withFragment f.1 (ls ++ fragment f.1 f.2 :: rs)).Complete ↔ rest = []) := by
    intro as bs old ls rs hfinds hsplit hfragments
    obtain ⟨hp, hlast⟩ := hfinds.gathered hg₁
    have hp' : (old.withFragment f.1 (ls ++ fragment f.1 f.2 :: rs)).p.Perm ((fs ++ [f]).map pieceOf) := by
      rw [List.map_append]
      exact (withFragment_perm hsplit).trans ((hp.cons _).trans (List.perm_append_singleton _ _).symm)
    have hlast' : (old.withFragment f.1 (ls ++ fragment f.1 f.2 :: rs)).lastfrag = true ↔
        ∃ g ∈ fs ++ [f], isLastFrag g.1 = true := by
      rw [IpReassdata.withFragment, Bool.or_eq_true, hlast]
      simp only [List.mem_append, List.mem_singleton, or_and_right, exists_or, exists_eq_left]
    have hne : fs ++ [f] ≠ [] := List.append_ne_nil_of_right_ne_nil _ (List.cons_ne_nil _ _)
    exact ⟨hp', hlast', h.complete_iff hperm' hne hp' hfragments hlast' rfl⟩
  obtain ⟨l', c'⟩ := s'
  dsimp only at hout ⊢
  cases hout with
  | dropped hrefused => exact absurd hrefused hnot
  | rewritten hlist hr hrefused => exact absurd hrefused hnot
  | @queued as bs old ls rs hfinds hsplit hfragments hopen =>
    obtain ⟨hp, hlast, hcomplete⟩ := hnew hfinds hsplit hfragments
    refine .inl ⟨mt hcomplete.mpr hopen, rfl, fun x hx hkey => ?_, fun _ => ?_⟩
    · rcases mem_split hx with rfl | hx
      · exact ⟨hp, hlast⟩
      · exact absurd hkey (hfinds.others hkeys x hx)
    · exact ⟨_, List.mem_append_right _ List.mem_cons_self, hfinds.isOf⟩
  | finished hfinds hsplit hfragments hcomplete =>
    exact .inr ⟨(hnew hfinds hsplit hfragments).2.2.mp hcomplete, _, rfl, hfinds.isOf⟩

/-- The fragments of a datagram, one after the other in any order, are handed over together with the last one to arrive,
    and hold the data of the datagram. -/
theorem reassembled_of_cut (hpos : ∀ p, 0 < pbufClen p) (evs : List (ReassEvent α))
    (hnone : ∀ r ∈ (reassRun pbufClen evs).reassdatagrams, ipKey r.iphdr ≠ key) (h : Cut payload data key cut)
    (hperm : (fs ++ [f]).Perm cut) (hroom : (cut.map fun f => pbufClen f.2).sum ≤ ipReassMaxPbufs)
    (hlen : data.length ≤ 0xFFFF - ipHlen) :
    reassembled pbufClen (reassRun pbufClen evs) (fs.map arrival) = [] ∧
      ∃ r, reassembled pbufClen (reassRun pbufClen evs) ((fs ++ [f]).map arrival) = [r] ∧ ipKey r.iphdr = key ∧
        (r.p.flatMap fun q => payload q.p) = data ∧ r.datagramLen = data.length := by
  have hok : ∀ evs', ReassOk pbufClen (reassFrom pbufClen (reassRun pbufClen evs) evs') :=
    (reassOk_run hpos evs).reassFrom hpos
  -- nothing is handed over as long as a fragment is missing
  have hrun : ∀ gs rest, (gs ++ rest).Perm cut → rest ≠ [] →
      Gathered key (reassFrom pbufClen (reassRun pbufClen evs) (gs.map arrival)).reassdatagrams gs ∧
        reassembled pbufClen (reassRun pbufClen evs) (gs.map arrival) = [] := by
    intro gs
    induction gs using List.reverseRecOn with
    | nil => exact fun rest _ _ => ⟨⟨fun r hr hkey => absurd hkey (hnone r hr), fun hne => absurd rfl hne⟩, rfl⟩
    | append_singleton gs g ih =>
      intro rest hperm hrest
      rw [List.append_assoc, List.singleton_append] at hperm
      obtain ⟨hg, hnothing⟩ := ih (g :: rest) hperm (List.cons_ne_nil _ _)
      rcases h.step hpos (hok _) hperm hroom hlen hg with ⟨-, hres, hg'⟩ | ⟨hnil, -⟩
      · rw [List.map_append, List.map_singleton, reassFrom_concat, reassembled_concat, hnothing, hres]
        exact ⟨hg', rfl⟩
      · exact absurd hnil hrest
  obtain ⟨hg, hnothing⟩ := hrun fs [f] hperm (List.cons_ne_nil _ _)
  refine ⟨hnothing, ?_⟩
  rcases h.step hpos (hok _) hperm hroom hlen hg with ⟨hrest, -⟩ | ⟨-, r, hres, hkey⟩
  · exact absurd rfl hrest
  · have hall : reassembled pbufClen (reassRun pbufClen evs) ((fs ++ [f]).map arrival) = [r] := by
      rw [List.map_append, List.map_singleton, reassembled_concat, hnothing, hres]
      rfl
    have hsent : FragmentsSent payload data key ((fs ++ [f]).map arrival) := fun fraghdr p hmem _ => by
      obtain ⟨g, hgmem, hg⟩ := List.mem_map.mp hmem
      cases hg
      exact h.piece g (hperm.subset hgmem)
    obtain ⟨-, hdata⟩ := pieces_run hpos (reassOk_run hpos evs) _ hnone hsent
    exact ⟨r, hall, hkey, hdata r (hall ▸ List.mem_cons_self) hkey⟩

end

theorem lanFragments_cut : Cut id lanData (ipKey (lanHeader 0#8 1#8 0#8 0#8)) lanFragments where
  key := by decide
  header := by decide
  piece := lanFragments_fragmentOf
  chained := ⟨by decide, by decide, trivial⟩
  whole := by decide

/-- The second fragment comes first. -/
theorem reassembled_of_cut_reversed :
    ∃ r, reassembled (fun _ => 1) (reassRun (fun _ => 1) []) (lanFragments.reverse.map arrival) = [r] ∧
      (r.p.flatMap fun q => q.p) = lanData := by
  obtain ⟨-, r, hall, -, hdata, -⟩ := @reassembled_of_cut (List Byte) (fun _ => 1) id _ _ _ [lanFragments[1]]
    lanFragments[0] (fun _ => Nat.one_pos) [] (fun r hr => absurd hr List.not_mem_nil) lanFragments_cut
    (List.Perm.swap _ _ _) (by decide) (by decide)
  exact ⟨r, hall, hdata⟩

end YlsFirmware
