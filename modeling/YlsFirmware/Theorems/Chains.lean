import YlsFirmware.Pbuf
import Mathlib.Tactic.SplitIfs

/-! A chain of pbufs is the string of its bytes: what the functions of pbuf.c do to the packet, and that they keep the
total lengths right. -/

namespace YlsFirmware
open Packed

/-! ### Lengths -/

/-- The number of bytes of a chain. -/
def packetLen (p : List StructPbuf) : Nat := (p.map StructPbuf.len).sum

theorem packet_cons (mem : Memory) (p : StructPbuf) (ps : List StructPbuf) :
    packet mem (p :: ps) = p.bytes mem ++ packet mem ps := List.flatMap_cons

theorem packet_append (mem : Memory) (p q : List StructPbuf) : packet mem (p ++ q) = packet mem p ++ packet mem q :=
  List.flatMap_append

@[simp] theorem packetLen_cons (p : StructPbuf) (ps : List StructPbuf) : packetLen (p :: ps) = p.len + packetLen ps :=
  List.sum_cons

@[simp] theorem length_bytes (mem : Memory) (p : StructPbuf) : (p.bytes mem).length = p.len := length_read _ _ _

@[simp] theorem length_packet (mem : Memory) (p : List StructPbuf) : (packet mem p).length = packetLen p := by
  induction p with
  | nil => rfl
  | cons p ps ih => rw [packet_cons, List.length_append, ih, length_bytes, packetLen_cons]

theorem packetLen_append (p q : List StructPbuf) : packetLen (p ++ q) = packetLen p + packetLen q := by
  rw [packetLen, List.map_append, List.sum_append]
  rfl

/-- A store beside the payloads of a chain. -/
theorem packet_write_disjoint {mem : Memory} {p : List StructPbuf} {o : Nat} {bs : List Byte}
    (h : ∀ q ∈ p, q.payload + q.len ≤ o ∨ o + bs.length ≤ q.payload) : packet (write mem o bs) p = packet mem p :=
  List.flatMap_congr fun q hq => read_write_disjoint (h q hq)

/-- `tot_len` counts the bytes from a pbuf on. -/
def TotLens : List StructPbuf → Prop
  | [] => True
  | p :: ps => p.totLen = p.len + packetLen ps ∧ TotLens ps

theorem TotLens.totLen_eq {p : List StructPbuf} (h : TotLens p) : totLen p = packetLen p := by
  cases p with
  | nil => rfl
  | cons p ps => exact h.1

/-- The lengths of a chain are right, and fit into their fields. -/
structure ChainOk (p : List StructPbuf) : Prop where
  totLens : TotLens p
  lt : packetLen p < 2 ^ 16

theorem ChainOk.tail {p : StructPbuf} {ps : List StructPbuf} (h : ChainOk (p :: ps)) : ChainOk ps :=
  ⟨h.totLens.2, Nat.lt_of_le_of_lt (Nat.le_add_left _ _) (packetLen_cons p ps ▸ h.lt)⟩

theorem ChainOk.totLen_eq {p : StructPbuf} {ps : List StructPbuf} (h : ChainOk (p :: ps)) :
    p.totLen = p.len + packetLen ps := h.totLens.1

theorem ChainOk.len_lt {p : List StructPbuf} (h : ChainOk p) : ∀ q ∈ p, q.len < 2 ^ 16 := by
  induction p with
  | nil => exact fun q hq => absurd hq List.not_mem_nil
  | cons p ps ih =>
    have hlt := h.lt
    rw [packetLen_cons] at hlt
    rintro q hq
    rcases List.mem_cons.mp hq with rfl | hq
    · omega
    · exact ih h.tail q hq

/-! ### Headers -/

theorem pbufAddHeader_eq {p q : StructPbuf} {ps : List StructPbuf} {n : Nat} (hok : ChainOk (p :: ps)) (hn : 0 < n)
    (h : pbufAddHeader p n = some q) :
    q = { p with payload := p.payload - n, len := p.len + n, totLen := p.totLen + n } ∧ p.start + n ≤ p.payload ∧
      packetLen (p :: ps) + n < 2 ^ 16 := by
  have htot := hok.totLen_eq
  have hlt := hok.lt
  rw [packetLen_cons] at hlt ⊢
  rw [pbufAddHeader, pbufAddHeaderImpl] at h
  split_ifs at h with h₁ h₂ h₃ h₄ h₅
  · exact absurd h₂ (Nat.ne_of_gt hn)
  · have hcontig : p.type.contiguous = true := by
      cases hc : p.type.contiguous
      · exact absurd (by rw [hc]; rfl) h₅
      · rfl
    rw [hcontig, Bool.true_and, decide_eq_true_eq] at h₄
    have hsum : p.totLen + n < 2 ^ 16 := by
      rw [Nat.add_comm] at h₃
      by_contra hge
      have hmod : (p.totLen + n) % 2 ^ 16 = p.totLen + n - 2 ^ 16 := by omega
      omega
    refine ⟨?_, by omega, by omega⟩
    rw [← Option.some.inj h, Nat.mod_eq_of_lt hsum, Nat.mod_eq_of_lt (by omega)]

/-- The room in front of the payload is not part of the packet. -/
def Roomy (p : StructPbuf) (ps : List StructPbuf) : Prop :=
  ∀ q ∈ ps, q.payload + q.len ≤ p.start ∨ p.payload ≤ q.payload

/-- A header written in front of a packet. -/
theorem packet_prepend {mem : Memory} {p q : StructPbuf} {ps : List StructPbuf} (hok : ChainOk (p :: ps))
    (hroom : Roomy p ps) {bs : List Byte} (hbs : bs ≠ []) (h : pbufAddHeader p bs.length = some q) :
    packet (write mem q.payload bs) (q :: ps) = bs ++ packet mem (p :: ps) ∧ ChainOk (q :: ps) ∧ Roomy q ps ∧
      q.len = p.len + bs.length ∧ q.totLen = p.totLen + bs.length := by
  obtain ⟨rfl, hstart, hlt⟩ := pbufAddHeader_eq hok (List.length_pos_iff.mpr hbs) h
  have hback : p.payload - bs.length + bs.length = p.payload := Nat.sub_add_cancel (by omega)
  have hfirst : read (write mem (p.payload - bs.length) bs) (p.payload - bs.length) (p.len + bs.length) =
      bs ++ p.bytes mem := by
    rw [Nat.add_comm p.len, read_add, read_write, hback, read_write_disjoint (.inr (Nat.le_of_eq hback))]
    rfl
  have hrest : packet (write mem (p.payload - bs.length) bs) ps = packet mem ps := by
    refine packet_write_disjoint fun r hr => ?_
    rcases hroom r hr with hr | hr
    · exact .inl (by omega)
    · exact .inr (by omega)
  have htot := hok.totLen_eq
  rw [packetLen_cons] at hlt
  refine ⟨?_, ⟨⟨?_, hok.tail.totLens⟩, ?_⟩, fun r hr => ?_, rfl, rfl⟩
  · rw [packet_cons, packet_cons, hrest, StructPbuf.bytes, hfirst, List.append_assoc]
  · dsimp only
    omega
  · rw [packetLen_cons]
    dsimp only
    omega
  · rcases hroom r hr with hr | hr
    · exact .inl hr
    · exact .inr (Nat.le_trans (Nat.sub_le _ _) hr)

theorem pbufRemoveHeader_eq {p : StructPbuf} {n : Nat} (hn : n ≤ p.len) (htot : p.len ≤ p.totLen)
    (hlt : p.totLen < 2 ^ 16) :
    pbufRemoveHeader p n = some { p with payload := p.payload + n, len := p.len - n, totLen := p.totLen - n } := by
  rw [pbufRemoveHeader, if_neg (by omega)]
  split_ifs with hzero hlen
  · subst hzero
    rfl
  · omega
  · have hmod : (2 ^ 16 + p.totLen - n) % 2 ^ 16 = p.totLen - n := by omega
    rw [hmod]

/-- A header taken from the front of a packet. -/
theorem packet_removeHeader (mem : Memory) {p : StructPbuf} {ps : List StructPbuf} {n : Nat} (hok : ChainOk (p :: ps))
    (hn : n ≤ p.len) :
    ∃ q, pbufRemoveHeader p n = some q ∧ packet mem (p :: ps) = read mem p.payload n ++ packet mem (q :: ps) ∧
      ChainOk (q :: ps) ∧ q.payload = p.payload + n ∧ q.len = p.len - n := by
  have htot := hok.totLen_eq
  have hlt := hok.lt
  rw [packetLen_cons] at hlt
  refine ⟨_, pbufRemoveHeader_eq hn (by omega) (by omega), ?_, ⟨⟨?_, hok.tail.totLens⟩, ?_⟩, rfl, rfl⟩
  · have hbytes := read_add mem p.payload n (p.len - n)
    rw [Nat.add_sub_cancel' hn] at hbytes
    rw [packet_cons, packet_cons, ← List.append_assoc, StructPbuf.bytes, hbytes]
    rfl
  · dsimp only
    omega
  · rw [packetLen_cons]
    dsimp only
    omega

/-! ### Chains that are cut -/

theorem pbufReallocLoop_spec (mem : Memory) {shrink remLen : Nat} {p : List StructPbuf} (hok : ChainOk p)
    (hlen : remLen + shrink = packetLen p) :
    packet mem (pbufReallocLoop shrink p remLen).1 = (packet mem p).take remLen ∧
      ChainOk (pbufReallocLoop shrink p remLen).1 := by
  induction p generalizing remLen with
  | nil => exact ⟨List.take_nil.symm, hok⟩
  | cons q qs ih =>
    have htot := hok.totLen_eq
    have hlt := hok.lt
    rw [packetLen_cons] at hlen hlt
    rw [pbufReallocLoop, packet_cons]
    split_ifs with hskip
    · obtain ⟨hpacket, hok'⟩ := ih hok.tail (show remLen - q.len + shrink = packetLen qs by omega)
      generalize pbufReallocLoop shrink qs (remLen - q.len) = r at hpacket hok'
      obtain ⟨kept, freed⟩ := r
      have hkept : packetLen kept = remLen - q.len := by
        rw [← length_packet mem, hpacket, List.length_take, length_packet]
        omega
      dsimp only at hpacket hok' ⊢
      refine ⟨?_, ⟨⟨?_, hok'.totLens⟩, ?_⟩⟩
      · have hfirst : (q.bytes mem).take remLen = q.bytes mem :=
          List.take_of_length_le (by rw [length_bytes]; exact Nat.le_of_lt hskip)
        rw [packet_cons, hpacket, List.take_append, length_bytes, hfirst]
        rfl
      · dsimp only
        omega
      · rw [packetLen_cons]
        dsimp only
        omega
    · refine ⟨?_, ⟨⟨rfl, trivial⟩, ?_⟩⟩
      · have hcut : remLen ≤ q.len := Nat.le_of_not_lt hskip
        rw [packet_cons, List.take_append_of_le_length (by rw [length_bytes]; exact hcut)]
        exact (List.append_nil _).trans (take_read mem q.payload hcut).symm
      · have hcut : remLen ≤ q.len := Nat.le_of_not_lt hskip
        exact Nat.lt_of_le_of_lt (Nat.le_trans hcut (Nat.le_add_right _ _)) hlt

/-- `pbuf_realloc` leaves a prefix of the packet. -/
theorem pbufRealloc_spec (mem : Memory) {p : List StructPbuf} (hok : ChainOk p) (newLen : Nat) :
    packet mem (pbufRealloc p newLen).1 = (packet mem p).take newLen ∧ ChainOk (pbufRealloc p newLen).1 := by
  rw [pbufRealloc, hok.totLens.totLen_eq]
  split_ifs with h
  · exact ⟨(List.take_of_length_le (by rw [length_packet]; exact h)).symm, hok⟩
  · exact pbufReallocLoop_spec mem hok (by omega)

/-- The first pbuf stays, shortened if the cut lies in it. -/
theorem pbufRealloc_cons (p : StructPbuf) (ps : List StructPbuf) (newLen : Nat) :
    ∃ q qs, (pbufRealloc (p :: ps) newLen).1 = q :: qs ∧ q.payload = p.payload ∧ min p.len newLen ≤ q.len ∧
      q.len ≤ p.len := by
  rw [pbufRealloc]
  split_ifs with h
  · exact ⟨p, ps, rfl, rfl, Nat.min_le_left _ _, Nat.le_refl _⟩
  · rw [pbufReallocLoop]
    split_ifs with hskip
    · exact ⟨_, _, rfl, rfl, Nat.min_le_left _ _, Nat.le_refl _⟩
    · exact ⟨_, _, rfl, rfl, Nat.min_le_right _ _, Nat.le_of_not_lt hskip⟩

/-! ### Chains in a row -/

theorem packet_pbufCat (mem : Memory) (h t : List StructPbuf) : packet mem (pbufCat h t) = packet mem h ++ packet mem t := by
  rw [pbufCat, packet_append, packet, List.flatMap_map]
  rfl

theorem packetLen_pbufCat (h t : List StructPbuf) : packetLen (pbufCat h t) = packetLen h + packetLen t := by
  rw [pbufCat, packetLen_append, packetLen, List.map_map]
  rfl

theorem ChainOk.cat {h t : List StructPbuf} (hh : ChainOk h) (ht : ChainOk t) (hlt : packetLen h + packetLen t < 2 ^ 16) :
    ChainOk (pbufCat h t) := by
  refine ⟨?_, by rwa [packetLen_pbufCat]⟩
  induction h with
  | nil => exact ht.totLens
  | cons p ps ih =>
    have htot := hh.totLen_eq
    rw [packetLen_cons] at hlt
    have hcons : (p.totLen + totLen t) % 2 ^ 16 = p.len + packetLen (pbufCat ps t) := by
      rw [packetLen_pbufCat, ht.totLens.totLen_eq, htot, Nat.mod_eq_of_lt (by omega), Nat.add_assoc]
    exact ⟨hcons, ih hh.tail (by omega)⟩

end YlsFirmware
