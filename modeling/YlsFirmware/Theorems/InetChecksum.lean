import YlsFirmware.Inet
import YlsFirmware.Lib.OnesComplement

/-! The Internet checksum of a chain is that of its bytes, wherever the pbufs lie and wherever they cut the packet. -/

namespace YlsFirmware
open Packed OnesComplement

/-! ### Words -/

/-- The number whose digits to the base 256 the bytes are, the first one the lowest. -/
def leNat (bs : List Byte) : Nat := Nat.ofDigits 256 (bs.map BitVec.toNat)

theorem leNat_append (as bs : List Byte) : leNat (as ++ bs) = leNat as + 256 ^ as.length * leNat bs := by
  rw [leNat, List.map_append, Nat.ofDigits_append, List.length_map]
  rfl

theorem leNat_cons (b : Byte) (bs : List Byte) : leNat (b :: bs) = b.toNat + 256 * leNat bs := Nat.ofDigits_cons

@[simp] theorem leNat_nil : leNat [] = 0 := rfl

theorem toNat_append_byte (a b : Byte) : (a ++ b).toNat = b.toNat + 256 * a.toNat := by
  rw [BitVec.toNat_append, ← Nat.shiftLeft_add_eq_or_of_lt b.isLt, Nat.shiftLeft_eq, Nat.add_comm, Nat.mul_comm]

theorem toNat_load16 (mem : Memory) (o : Nat) : (load16 mem o).toNat = (mem o).toNat + 256 * (mem (o + 1)).toNat :=
  toNat_append_byte _ _

theorem leNat_bytes16 (v : BitVec 16) : leNat (bytes16 v) = v.toNat := by
  have hv := v.isLt
  rw [bytes16, leNat_cons, leNat_cons, leNat_nil, BitVec.toNat_setWidth, BitVec.toNat_setWidth, BitVec.toNat_ushiftRight,
    Nat.shiftRight_eq_div_pow]
  omega

theorem toNat_foldU32T (u : BitVec 32) : (foldU32T u).toNat = fold 65536 u.toNat := by
  have hu := u.isLt
  have hmask : (u &&& 0x0000ffff#32).toNat = u.toNat % 65536 := Nat.and_two_pow_sub_one_eq_mod u.toNat 16
  rw [foldU32T, BitVec.toNat_add, hmask, BitVec.toNat_ushiftRight, Nat.shiftRight_eq_div_pow, fold]
  omega

theorem lwipHtons_eq (n : BitVec 16) : lwipHtons n = n.setWidth 8 ++ (n >>> 8).setWidth 8 := by
  refine BitVec.eq_of_getLsbD_eq fun i hi => ?_
  rw [BitVec.getLsbD_append]
  interval_cases i <;> simp [lwipHtons]

theorem toNat_lwipHtons (n : BitVec 16) : (lwipHtons n).toNat = swap 256 n.toNat := by
  have hn := n.isLt
  rw [lwipHtons_eq, toNat_append_byte, BitVec.toNat_setWidth, BitVec.toNat_setWidth, BitVec.toNat_ushiftRight,
    Nat.shiftRight_eq_div_pow, swap]
  omega

theorem lwipHtons_lwipHtons (n : BitVec 16) : lwipHtons (lwipHtons n) = n := by
  have hn := n.isLt
  refine BitVec.eq_of_toNat_eq ?_
  rw [toNat_lwipHtons, toNat_lwipHtons, swap, swap]
  omega

theorem swapBytesInWord_eq (w : BitVec 32) : swapBytesInWord w = (lwipHtons (w.setWidth 16)).setWidth 32 := by
  refine BitVec.eq_of_getLsbD_eq fun i hi => ?_
  rw [lwipHtons, BitVec.getLsbD_setWidth]
  interval_cases i <;> simp [swapBytesInWord]

theorem toNat_swapBytesInWord {w : BitVec 32} (h : w.toNat < 65536) : (swapBytesInWord w).toNat = swap 256 w.toNat := by
  rw [swapBytesInWord_eq, BitVec.toNat_setWidth_of_le (by decide), toNat_lwipHtons, BitVec.toNat_setWidth,
    Nat.mod_eq_of_lt h]

/-! ### lwip_standard_chksum -/

/-- The sum of the words of a string. -/
def words (bs : List Byte) : Nat := wordSum 256 (bs.map BitVec.toNat)

theorem words_same (bs : List Byte) : Same 65536 (words bs) (leNat bs) := wordSum_same (by decide) _

theorem words_le (bs : List Byte) : words bs ≤ (bs.length + 1) / 2 * 65535 := by
  have hle := @wordSum_lt 256 (by decide) (bs.map BitVec.toNat) fun x hx => by
    obtain ⟨b, -, rfl⟩ := List.mem_map.mp hx
    exact b.isLt
  rwa [List.length_map] at hle

theorem words_cons_cons (a b : Byte) (bs : List Byte) : words (a :: b :: bs) = a.toNat + 256 * b.toNat + words bs := rfl

theorem chksumWords_spec (mem : Memory) (ps len : Nat) (sum : BitVec 32)
    (h : sum.toNat + words (read mem ps len) < 2 ^ 32) :
    (chksumWords mem ps len sum).2.toNat + (if len % 2 = 1 then (mem (chksumWords mem ps len sum).1).toNat else 0) =
      sum.toNat + words (read mem ps len) := by
  induction ps, len, sum using chksumWords.induct mem with
  | case1 ps len sum ih =>
    have htwo : ps + 1 + 1 = ps + 2 := rfl
    rw [read_succ, read_succ, words_cons_cons, htwo] at h ⊢
    have hsum : (sum + (load16 mem ps).setWidth 32).toNat =
        sum.toNat + ((mem ps).toNat + 256 * (mem (ps + 1)).toNat) := by
      rw [BitVec.toNat_add, BitVec.toNat_setWidth_of_le (by decide), toNat_load16]
      exact Nat.mod_eq_of_lt (by omega)
    have hih := ih (by rw [hsum]; omega)
    rw [hsum] at hih
    have hmod : len.succ.succ % 2 = len % 2 := Nat.add_mod_right len 2
    rw [chksumWords, hmod, hih]
    exact Nat.add_assoc _ _ _
  | case2 len ps sum hlen =>
    rw [chksumWords]
    · rcases len with _ | _ | len
      · rfl
      · rfl
      · exact absurd rfl (hlen len)
    · exact hlen

/-- The words of the bulk, with the end bytes: at most 0x20000 bytes make no carry out of 32 bits. -/
theorem toNat_chksumWords_add (mem : Memory) (pb len : Nat) (t : Byte) (h : len ≤ 0x20000) :
    ((chksumWords mem pb len 0#32).2 +
      (t ++ if len % 2 = 1 then mem (chksumWords mem pb len 0#32).1 else 0#8).setWidth 32).toNat =
        words (read mem pb len) + 256 * t.toNat := by
  have hle := words_le (read mem pb len)
  rw [length_read] at hle
  have hspec := chksumWords_spec mem pb len 0#32 (by rw [BitVec.toNat_ofNat]; omega)
  have ht := t.isLt
  rw [BitVec.toNat_add, BitVec.toNat_setWidth_of_le (by decide), toNat_append_byte]
  rw [BitVec.toNat_ofNat, Nat.zero_mod, Nat.zero_add] at hspec
  split_ifs at hspec ⊢
  · rw [← hspec]
    exact (Nat.mod_eq_of_lt (by omega)).trans (by omega)
  · rw [← hspec, BitVec.toNat_ofNat]
    exact (Nat.mod_eq_of_lt (by omega)).trans (by omega)

/-- At an odd address, the words are those of the bytes one place further, and the sum is shifted back. -/
theorem lwipStandardChksum_same (mem : Memory) (dataptr : Nat) {len : Nat} (h : len ≤ 0x20000) :
    Same 65536 (lwipStandardChksum mem dataptr len).toNat (leNat (read mem dataptr len)) := by
  have hfolded : ∀ {sum : BitVec 32}, (foldU32T (foldU32T sum)).toNat < 65536 := fun {sum} => by
    rw [toNat_foldU32T, toNat_foldU32T]
    exact fold_fold_lt (by decide) sum.isLt
  have hsame : ∀ sum : BitVec 32, Same 65536 (foldU32T (foldU32T sum)).toNat sum.toNat := fun sum => by
    rw [toNat_foldU32T, toNat_foldU32T]
    exact fold_fold_same (by decide) _
  rw [lwipStandardChksum]
  rcases Nat.mod_two_eq_zero_or_one dataptr with heven | hodd
  · have hne : ¬ dataptr % 2 = 1 := by omega
    simp only [hne, decide_false, Bool.false_and, Bool.false_eq_true, ↓reduceIte]
    rw [BitVec.toNat_setWidth, Nat.mod_eq_of_lt hfolded]
    refine (hsame _).trans ?_
    rw [toNat_chksumWords_add mem dataptr len 0#8 h]
    exact words_same _
  · rcases Nat.eq_zero_or_pos len with rfl | hpos
    · simp only [hodd, decide_true, Nat.lt_irrefl, decide_false, Bool.and_false, Bool.false_eq_true, ↓reduceIte]
      have hnone : chksumWords mem dataptr 0 0#32 = (dataptr, 0#32) := rfl
      have hzero : (swapBytesInWord (foldU32T (foldU32T (0#32 + BitVec.setWidth 32 (0#8 ++ 0#8))))).setWidth 16 = 0#16 := by
        decide
      rw [hnone, if_neg (by decide), hzero]
      exact .refl _ _
    · obtain ⟨n, rfl⟩ := Nat.exists_eq_succ_of_ne_zero hpos.ne'
      simp only [hodd, decide_true, hpos, Bool.and_true, ↓reduceIte]
      rw [BitVec.toNat_setWidth, toNat_swapBytesInWord hfolded, Nat.mod_eq_of_lt (swap_lt hfolded)]
      refine (swap_same (by decide) _).trans ?_
      rw [Nat.succ_eq_add_one, Nat.add_sub_cancel, read_succ, leNat_cons]
      have hsum := toNat_chksumWords_add mem (dataptr + 1) n (mem dataptr) (by omega)
      refine ((hsame _).mul_left 256).trans ?_
      rw [hsum, Nat.mul_add, Nat.add_comm]
      exact (swap_swap_same (by decide) _).add ((words_same _).mul_left 256)

/-! ### Chains -/

/-- What the sum of a chain counts for: shifted by a byte if the number of bytes before it is odd. -/
def place (swapped : Bool) (n : Nat) : Nat := if swapped then 256 * n else n

theorem place_add (swapped : Bool) (m n : Nat) : place swapped (m + n) = place swapped m + place swapped n := by
  cases swapped
  · rfl
  · exact Nat.mul_add 256 m n

theorem same_place {m n : Nat} (h : Same 65536 m n) (swapped : Bool) :
    Same 65536 (place swapped m) (place swapped n) := by
  cases swapped
  · exact h
  · exact h.mul_left 256

theorem place_not_same (swapped : Bool) (n : Nat) : Same 65536 (place (!swapped) (256 * n)) (place swapped n) := by
  cases swapped
  · exact swap_swap_same (by decide) n
  · exact .refl _ _

/-- A sum and the word added to it, folded. -/
theorem foldU32T_add {acc : BitVec 32} (hacc : acc.toNat < 65536) (w : BitVec 16) :
    (foldU32T (acc + w.setWidth 32)).toNat < 65536 ∧
      Same 65536 (foldU32T (acc + w.setWidth 32)).toNat (acc.toNat + w.toNat) := by
  have hw := w.isLt
  have hsum : (acc + w.setWidth 32).toNat = acc.toNat + w.toNat := by
    rw [BitVec.toNat_add, BitVec.toNat_setWidth_of_le (by decide)]
    exact Nat.mod_eq_of_lt (by omega)
  rw [toNat_foldU32T, hsum]
  exact ⟨fold_lt (by decide) (by omega), fold_same (by decide) _⟩

/-- All pbufs have lengths that `lwip_standard_chksum` can add up. -/
def ShortPbufs (p : List StructPbuf) : Prop := ∀ q ∈ p, q.len < 2 ^ 16

theorem chksumChain_same (mem : Memory) {p : List StructPbuf} (h : ShortPbufs p) {swapped : Bool} {acc : BitVec 32}
    (hacc : acc.toNat < 65536) :
    (chksumChain mem p swapped acc).2.toNat < 65536 ∧
      Same 65536 (place (chksumChain mem p swapped acc).1 (chksumChain mem p swapped acc).2.toNat)
        (place swapped (acc.toNat + leNat (packet mem p))) := by
  induction p generalizing swapped acc with
  | nil => exact ⟨hacc, .refl _ _⟩
  | cons q qs ih =>
    have hlen := h q List.mem_cons_self
    have hqs : ShortPbufs qs := fun r hr => h r (List.mem_cons_of_mem _ hr)
    obtain ⟨hlt, hsame⟩ := foldU32T_add hacc (lwipStandardChksum mem q.payload q.len)
    have hfirst : Same 65536 (foldU32T (acc + (lwipStandardChksum mem q.payload q.len).setWidth 32)).toNat
        (acc.toNat + leNat (q.bytes mem)) :=
      hsame.trans ((Same.refl _ _).add (lwipStandardChksum_same mem q.payload (by omega)))
    have hpacket : packet mem (q :: qs) = q.bytes mem ++ packet mem qs := List.flatMap_cons
    have hbytes : (q.bytes mem).length = q.len := length_read _ _ _
    have hrest := @pow_mul_same 256 (by decide) q.len (leNat (packet mem qs))
    rw [chksumChain, hpacket, leNat_append, hbytes, ← Nat.add_assoc]
    split_ifs with hodd
    · have hswap := toNat_swapBytesInWord hlt
      obtain ⟨hlt', hsame'⟩ := @ih hqs (!swapped) (swapBytesInWord (foldU32T
        (acc + (lwipStandardChksum mem q.payload q.len).setWidth 32))) (by rw [hswap]; exact swap_lt hlt)
      refine ⟨hlt', hsame'.trans ?_⟩
      rw [if_neg hodd] at hrest
      rw [hswap, place_add, place_add]
      refine Same.add ?_ ?_
      · refine (same_place (swap_same (by decide) _) _).trans ?_
        exact (place_not_same _ _).trans (same_place hfirst _)
      · have hback := place_not_same (!swapped) (leNat (packet mem qs))
        rw [Bool.not_not] at hback
        exact hback.symm.trans (same_place hrest.symm _)
    · obtain ⟨hlt', hsame'⟩ := @ih hqs swapped (foldU32T
        (acc + (lwipStandardChksum mem q.payload q.len).setWidth 32)) hlt
      refine ⟨hlt', hsame'.trans ?_⟩
      rw [if_pos (by omega)] at hrest
      exact same_place (hfirst.add hrest.symm) _

/-! ### Pseudo header -/

/-- The header that the checksum of a transport protocol covers besides the packet, in network byte order. -/
def pseudoHeader (proto : BitVec 8) (protoLen : BitVec 16) (src dest : BitVec 32) : List Byte :=
  bytes32 src ++ bytes32 dest ++ ([0#8, proto] ++ bytes16 (lwipHtons protoLen))

@[simp] theorem length_pseudoHeader (proto : BitVec 8) (protoLen : BitVec 16) (src dest : BitVec 32) :
    (pseudoHeader proto protoLen src dest).length = 12 := rfl

theorem leNat_bytes32 (v : BitVec 32) : leNat (bytes32 v) = v.toNat := by
  have hv := v.isLt
  rw [bytes32, leNat_append, leNat_bytes16, leNat_bytes16, length_bytes16, BitVec.toNat_setWidth, BitVec.toNat_setWidth,
    BitVec.toNat_ushiftRight, Nat.shiftRight_eq_div_pow]
  omega

theorem leNat_proto (proto : BitVec 8) : leNat [0#8, proto] = (lwipHtons (proto.setWidth 16)).toNat := by
  have hproto := proto.isLt
  rw [toNat_lwipHtons, BitVec.toNat_setWidth, swap, leNat_cons, leNat_cons, leNat_nil, BitVec.toNat_ofNat]
  omega

/-- The two words of an address. -/
theorem toNat_addr (acc addr : BitVec 32) (h : acc.toNat < 2 ^ 20) :
    (acc + (addr &&& 0xffff#32) + ((addr >>> 16) &&& 0xffff#32)).toNat = acc.toNat + fold 65536 addr.toNat := by
  have haddr := addr.isLt
  have hmask : ∀ u : BitVec 32, (u &&& 0xffff#32).toNat = u.toNat % 65536 := fun u =>
    Nat.and_two_pow_sub_one_eq_mod u.toNat 16
  have hhigh : (addr >>> 16).toNat = addr.toNat / 65536 := by
    rw [BitVec.toNat_ushiftRight, Nat.shiftRight_eq_div_pow]
  have hdiv : addr.toNat / 65536 < 65536 := Nat.div_lt_of_lt_mul haddr
  rw [BitVec.toNat_add, BitVec.toNat_add, hmask, hmask, hhigh, Nat.mod_eq_of_lt hdiv, fold]
  omega

theorem fold_addr_same (addr : BitVec 32) : Same 65536 (fold 65536 addr.toNat) (leNat (bytes32 addr)) := by
  rw [leNat_bytes32]
  exact fold_same (by decide) _

theorem inetCksumPseudoBase_same (mem : Memory) {p : List StructPbuf} (h : ShortPbufs p) (proto : BitVec 8)
    (protoLen : BitVec 16) {acc : BitVec 32} (hacc : acc.toNat < 65536) :
    Same 65536 (~~~inetCksumPseudoBase mem p proto protoLen acc).toNat
      (acc.toNat + leNat (packet mem p) + (leNat [0#8, proto] + leNat (bytes16 (lwipHtons protoLen)))) := by
  obtain ⟨hlt, hsame⟩ := @chksumChain_same mem p h false acc hacc
  rw [leNat_proto, leNat_bytes16]
  have hproto := (lwipHtons (proto.setWidth 16)).isLt
  have hlen := (lwipHtons protoLen).isLt
  rw [inetCksumPseudoBase]
  generalize chksumChain mem p false acc = r at hlt hsame
  obtain ⟨swapped, sum⟩ := r
  have hsum : (if swapped then swapBytesInWord sum else sum).toNat < 65536 ∧
      Same 65536 (if swapped then swapBytesInWord sum else sum).toNat (acc.toNat + leNat (packet mem p)) := by
    cases swapped
    · exact ⟨hlt, hsame⟩
    · simp only [↓reduceIte]
      rw [toNat_swapBytesInWord hlt]
      exact ⟨swap_lt hlt, (swap_same (by decide) _).trans hsame⟩
  dsimp only
  obtain ⟨hlt', hsame'⟩ := hsum
  generalize (if swapped then swapBytesInWord sum else sum) = s at hlt' hsame'
  have htotal : (s + (lwipHtons (proto.setWidth 16)).setWidth 32 + (lwipHtons protoLen).setWidth 32).toNat =
      s.toNat + ((lwipHtons (proto.setWidth 16)).toNat + (lwipHtons protoLen).toNat) := by
    rw [BitVec.toNat_add, BitVec.toNat_add, BitVec.toNat_setWidth_of_le (by decide),
      BitVec.toNat_setWidth_of_le (by decide)]
    omega
  have hfolded := @fold_fold_lt 65536 (s.toNat + ((lwipHtons (proto.setWidth 16)).toNat + (lwipHtons protoLen).toNat))
    (by decide) (by omega)
  have hmask : ∀ u : BitVec 32, (u &&& 0xffff#32).toNat = u.toNat % 65536 := fun u =>
    Nat.and_two_pow_sub_one_eq_mod u.toNat 16
  rw [BitVec.not_not, BitVec.toNat_setWidth, hmask, toNat_foldU32T, toNat_foldU32T, htotal, Nat.mod_eq_of_lt hfolded,
    Nat.mod_eq_of_lt hfolded]
  exact (fold_fold_same (by decide) _).trans (hsame'.add (.refl _ _))

/-- The checksum is the complement of the one's complement sum of the pseudo header and the bytes of the packet. -/
theorem inetChksumPseudo_same (mem : Memory) {p : List StructPbuf} (h : ShortPbufs p) (proto : BitVec 8)
    (protoLen : BitVec 16) (src dest : BitVec 32) :
    Same 65536 (~~~inetChksumPseudo mem p proto protoLen src dest).toNat
      (leNat (pseudoHeader proto protoLen src dest ++ packet mem p)) := by
  have hsrc := @fold_le 65536 src.toNat src.isLt
  have hdest := @fold_le 65536 dest.toNat dest.isLt
  have hacc : ((src &&& 0xffff#32) + ((src >>> 16) &&& 0xffff#32) + (dest &&& 0xffff#32) +
      ((dest >>> 16) &&& 0xffff#32)).toNat = fold 65536 src.toNat + fold 65536 dest.toNat := by
    have hfirst := toNat_addr 0#32 src (by decide)
    rw [BitVec.zero_add, BitVec.toNat_ofNat, Nat.zero_mod, Nat.zero_add] at hfirst
    rw [toNat_addr _ dest (by rw [hfirst]; omega), hfirst]
  have hfold : (foldU32T (foldU32T ((src &&& 0xffff#32) + ((src >>> 16) &&& 0xffff#32) + (dest &&& 0xffff#32) +
      ((dest >>> 16) &&& 0xffff#32)))).toNat = fold 65536 (fold 65536 (fold 65536 src.toNat + fold 65536 dest.toNat)) := by
    rw [toNat_foldU32T, toNat_foldU32T, hacc]
  have hlt := @fold_fold_lt 65536 (fold 65536 src.toNat + fold 65536 dest.toNat) (by decide) (by omega)
  have hbase := @inetCksumPseudoBase_same mem p h proto protoLen _ (hfold ▸ hlt)
  rw [hfold] at hbase
  refine hbase.trans ?_
  have hlen : ∀ bs : List Byte, bs.length % 2 = 0 → ∀ cs, Same 65536 (leNat (bs ++ cs)) (leNat bs + leNat cs) :=
    fun bs hbs cs => by
      have hshift := @pow_mul_same 256 (by decide) bs.length (leNat cs)
      rw [if_pos hbs] at hshift
      rw [leNat_append]
      exact (Same.refl _ _).add hshift
  have haddrs : Same 65536 (fold 65536 (fold 65536 (fold 65536 src.toNat + fold 65536 dest.toNat)))
      (leNat (bytes32 src) + leNat (bytes32 dest)) :=
    (fold_fold_same (by decide) _).trans ((fold_addr_same src).add (fold_addr_same dest))
  have hheader : Same 65536 (leNat (pseudoHeader proto protoLen src dest))
      (leNat (bytes32 src) + leNat (bytes32 dest) + (leNat [0#8, proto] + leNat (bytes16 (lwipHtons protoLen)))) := by
    refine (hlen (bytes32 src ++ bytes32 dest) (by simp) _).trans (Same.add ?_ ?_)
    · exact hlen (bytes32 src) (by simp) _
    · exact hlen [0#8, proto] (by simp) _
  refine Same.trans ?_ ((hlen (pseudoHeader proto protoLen src dest) (by simp) _).trans (hheader.add (.refl _ _))).symm
  rw [Nat.add_right_comm]
  exact (haddrs.add (.refl _ _)).add (.refl _ _)

/-! ### What the checksum depends on -/

/-- Chains of the same bytes have the same checksum, however they are cut into pbufs and wherever these lie. -/
theorem inetChksumPseudo_congr {mem mem' : Memory} {p p' : List StructPbuf} (h : ShortPbufs p) (h' : ShortPbufs p')
    (hpacket : packet mem p = packet mem' p') (proto : BitVec 8) (protoLen : BitVec 16) (src dest : BitVec 32) :
    inetChksumPseudo mem p proto protoLen src dest = inetChksumPseudo mem' p' proto protoLen src dest := by
  have hsame := inetChksumPseudo_same mem h proto protoLen src dest
  have hsame' := inetChksumPseudo_same mem' h' proto protoLen src dest
  rw [← hpacket] at hsame'
  exact BitVec.not_inj.mp (BitVec.eq_of_toNat_eq ((hsame.trans hsame'.symm).eq (BitVec.isLt _) (BitVec.isLt _)))

/-- Three bytes in one pbuf, and in two of which the first lies at an odd address. -/
theorem inetChksumPseudo_congr_cut :
    inetChksumPseudo (ofBytes [1, 2, 3]) [⟨0, 3, 3, .ram, 0⟩] 17#8 3#16 1#32 2#32 =
      inetChksumPseudo (ofBytes [3, 1, 2]) [⟨1, 3, 2, .rom, 0⟩, ⟨0, 1, 1, .pool, 0⟩] 17#8 3#16 1#32 2#32 :=
  inetChksumPseudo_congr (by simp [ShortPbufs]) (by simp [ShortPbufs]) rfl _ _ _ _

theorem inetChksumPseudo_eq_zero_iff {mem : Memory} {p : List StructPbuf} (h : ShortPbufs p) {proto : BitVec 8}
    {protoLen : BitVec 16} {src dest : BitVec 32} :
    inetChksumPseudo mem p proto protoLen src dest = 0#16 ↔
      leNat (pseudoHeader proto protoLen src dest ++ packet mem p) ≠ 0 ∧
        65535 ∣ leNat (pseudoHeader proto protoLen src dest ++ packet mem p) := by
  have hsame := inetChksumPseudo_same mem h proto protoLen src dest
  rw [← same_sub_one_iff (by decide : 1 < 65536)]
  constructor
  · intro hzero
    rw [hzero] at hsame
    exact hsame.symm
  · intro hones
    have heq := (hsame.trans hones).eq (BitVec.isLt _) (by decide)
    exact BitVec.not_inj.mp (@BitVec.eq_of_toNat_eq 16 _ (~~~0#16) heq)

theorem leNat_ne_zero_of_mem {bs : List Byte} {b : Byte} (hb : b ∈ bs) (hne : b ≠ 0#8) : leNat bs ≠ 0 := by
  induction bs with
  | nil => exact absurd hb List.not_mem_nil
  | cons a bs ih =>
    rw [leNat_cons]
    rcases List.mem_cons.mp hb with rfl | hb
    · have hpos : b.toNat ≠ 0 := fun h => hne (BitVec.eq_of_toNat_eq h)
      omega
    · have hpos := ih hb
      omega

theorem leNat_sealed (as bs : List Byte) (v : BitVec 16) :
    leNat (as ++ (bytes16 v ++ bs)) = leNat (as ++ (bytes16 0#16 ++ bs)) + 256 ^ as.length * v.toNat := by
  rw [leNat_append, leNat_append as, leNat_append, leNat_append (bytes16 0#16), leNat_bytes16, leNat_bytes16,
    length_bytes16, length_bytes16]
  have hzero : (0#16).toNat = 0 := rfl
  rw [hzero, Nat.zero_add]
  ring

/-- The checksum that a sender stores; 0 would mean that there is none. -/
def sealed (chksum : BitVec 16) : BitVec 16 := if chksum = 0#16 then 0xffff#16 else chksum

/-- A packet whose checksum is computed over its chain, with 0 in its place, and then stored there, passes the check. -/
theorem dvd_leNat_sealed {mem : Memory} {p : List StructPbuf} (h : ShortPbufs p) {proto : BitVec 8}
    {protoLen : BitVec 16} {src dest : BitVec 32} {as bs : List Byte} (has : as.length % 2 = 0)
    (hpacket : packet mem p = as ++ (bytes16 0#16 ++ bs)) :
    65535 ∣ leNat (pseudoHeader proto protoLen src dest ++
      (as ++ (bytes16 (sealed (inetChksumPseudo mem p proto protoLen src dest)) ++ bs))) := by
  have hsame := inetChksumPseudo_same mem h proto protoLen src dest
  generalize inetChksumPseudo mem p proto protoLen src dest = c at hsame ⊢
  rw [hpacket] at hsame
  have hplace : (pseudoHeader proto protoLen src dest ++ as).length % 2 = 0 := by
    rw [List.length_append, length_pseudoHeader]
    omega
  have hc := c.isLt
  have hcompl : (~~~c).toNat = 65535 - c.toNat := BitVec.toNat_not
  have hvalue : (sealed c).toNat ≠ 0 ∧ 65535 ∣ 65535 - c.toNat + (sealed c).toNat := by
    rw [sealed]
    split_ifs with hzero
    · rw [hzero]
      exact ⟨by decide, by decide⟩
    · have hpos : c.toNat ≠ 0 := fun h => hzero (BitVec.eq_of_toNat_eq h)
      exact ⟨hpos, by rw [Nat.sub_add_cancel (by omega)]⟩
  rw [← List.append_assoc, leNat_sealed]
  have hshift := @pow_mul_same 256 (by decide) (pseudoHeader proto protoLen src dest ++ as).length (sealed c).toNat
  rw [if_pos hplace] at hshift
  have hsum := hsame.symm.add hshift
  rw [hcompl, ← List.append_assoc] at hsum
  have hones := (@same_sub_one_iff 65536 (65535 - c.toNat + (sealed c).toNat) (by decide)).mpr ⟨by omega, hvalue.2⟩
  exact ((same_sub_one_iff (by decide)).mp (hsum.trans hones)).2

/-! ### Errors that go unseen -/

theorem testBit_leNat (bs : List Byte) (n : Nat) : (leNat bs).testBit n = bit (ofBytes bs) n := by
  induction bs generalizing n with
  | nil =>
    rw [leNat_nil, Nat.zero_testBit]
    exact (bit_zero n).symm
  | cons b bs ih =>
    have hcons : leNat (b :: bs) = 2 ^ 8 * leNat bs + b.toNat := by
      rw [leNat_cons, Nat.add_comm]
      rfl
    rw [hcons, Nat.testBit_two_pow_mul_add _ b.isLt, ih]
    rcases Nat.lt_or_ge n 8 with hn | hn
    · rw [if_pos hn, bit, Nat.div_eq_of_lt hn, Nat.mod_eq_of_lt hn]
      rfl
    · obtain ⟨k, rfl⟩ := Nat.exists_eq_add_of_le hn
      have hdiv : (8 + k) / 8 = k / 8 + 1 := by omega
      have hmod : (8 + k) % 8 = k % 8 := by omega
      rw [if_neg (by omega), Nat.add_sub_cancel_left, bit, bit, hdiv, hmod]
      rfl

/-- The bits from `k` on, as a word. -/
def window (n k : Nat) : Nat := n / 2 ^ k % 2 ^ 16

theorem testBit_window (n k i : Nat) : (window n k).testBit i = (decide (i < 16) && n.testBit (k + i)) := by
  rw [window, Nat.testBit_mod_two_pow, Nat.testBit_div_two_pow, Nat.add_comm]

/-- A number, cut around a window. -/
theorem window_split (n k : Nat) : n = n % 2 ^ k + 2 ^ (k + 16) * (n / 2 ^ (k + 16)) + 2 ^ k * window n k := by
  have hlow := Nat.div_add_mod n (2 ^ k)
  have hhigh := Nat.div_add_mod (n / 2 ^ k) (2 ^ 16)
  have hdiv : n / 2 ^ (k + 16) = n / 2 ^ k / 2 ^ 16 := by
    rw [Nat.pow_add, Nat.div_div_eq_div_mul]
  calc n = 2 ^ k * (n / 2 ^ k) + n % 2 ^ k := hlow.symm
    _ = 2 ^ k * (2 ^ 16 * (n / 2 ^ k / 2 ^ 16) + n / 2 ^ k % 2 ^ 16) + n % 2 ^ k := by rw [hhigh]
    _ = n % 2 ^ k + 2 ^ (k + 16) * (n / 2 ^ (k + 16)) + 2 ^ k * window n k := by
      rw [hdiv, window]
      ring

/-- Two strings agree outside the 16 bits from bit `k` on. -/
def AgreeOutside (bs bs' : List Byte) (k : Nat) : Prop :=
  ∀ n, n < k ∨ k + 16 ≤ n → bit (ofBytes bs) n = bit (ofBytes bs') n

theorem AgreeOutside.low {bs bs' : List Byte} {k : Nat} (h : AgreeOutside bs bs' k) :
    leNat bs % 2 ^ k = leNat bs' % 2 ^ k := by
  refine Nat.eq_of_testBit_eq fun i => ?_
  rw [Nat.testBit_mod_two_pow, Nat.testBit_mod_two_pow, testBit_leNat, testBit_leNat]
  by_cases hi : i < k
  · rw [h i (.inl hi)]
  · rw [decide_eq_false hi, Bool.false_and, Bool.false_and]

theorem AgreeOutside.high {bs bs' : List Byte} {k : Nat} (h : AgreeOutside bs bs' k) :
    leNat bs / 2 ^ (k + 16) = leNat bs' / 2 ^ (k + 16) := by
  refine Nat.eq_of_testBit_eq fun i => ?_
  rw [Nat.testBit_div_two_pow, Nat.testBit_div_two_pow, testBit_leNat, testBit_leNat, h _ (.inr (Nat.le_add_left _ _))]

/-- The 16 bits from bit `k` on are all equal to `v`. -/
def Constant (bs : List Byte) (k : Nat) (v : Bool) : Prop := ∀ i < 16, bit (ofBytes bs) (k + i) = v

theorem window_eq_zero_iff (bs : List Byte) (k : Nat) : window (leNat bs) k = 0 ↔ Constant bs k false := by
  constructor
  · intro h i hi
    have hbit := testBit_window (leNat bs) k i
    rw [h, Nat.zero_testBit, decide_eq_true hi, Bool.true_and, testBit_leNat] at hbit
    exact hbit.symm
  · intro h
    refine Nat.eq_of_testBit_eq fun i => ?_
    rw [testBit_window, testBit_leNat, Nat.zero_testBit]
    by_cases hi : i < 16
    · rw [h i hi, Bool.and_false]
    · rw [decide_eq_false hi, Bool.false_and]

theorem window_eq_ones_iff (bs : List Byte) (k : Nat) : window (leNat bs) k = 65535 ↔ Constant bs k true := by
  have hones : ∀ i, Nat.testBit 65535 i = decide (i < 16) := fun i => Nat.testBit_two_pow_sub_one 16 i
  constructor
  · intro h i hi
    have hbit := testBit_window (leNat bs) k i
    rw [h, hones, decide_eq_true hi, Bool.true_and, testBit_leNat] at hbit
    exact hbit.symm
  · intro h
    refine Nat.eq_of_testBit_eq fun i => ?_
    rw [testBit_window, testBit_leNat, hones]
    by_cases hi : i < 16
    · rw [h i hi, Bool.and_true]
    · rw [decide_eq_false hi, Bool.false_and]

theorem leNat_inj {bs bs' : List Byte} (hlen : bs.length = bs'.length) (h : leNat bs = leNat bs') : bs = bs' := by
  induction bs generalizing bs' with
  | nil => exact (List.length_eq_zero_iff.mp hlen.symm).symm
  | cons b bs ih =>
    obtain ⟨b', bs', rfl⟩ := List.exists_cons_of_length_eq_add_one hlen.symm
    rw [leNat_cons, leNat_cons] at h
    have hb := b.isLt
    have hb' := b'.isLt
    have hbyte : b = b' := BitVec.eq_of_toNat_eq (by omega)
    rw [hbyte, ih (Nat.succ.inj hlen) (by omega)]

/-- Of a packet that passes the check, a copy that differs in at most 16 consecutive bits passes it too exactly if
    nothing has changed or these bits have changed from all zeros to all ones or back. -/
theorem inetChksumPseudo_burst_iff {mem mem' : Memory} {p p' : List StructPbuf} (h : ShortPbufs p) (h' : ShortPbufs p')
    {proto : BitVec 8} (hproto : proto ≠ 0#8) {protoLen : BitVec 16} {src dest : BitVec 32}
    (hchk : inetChksumPseudo mem p proto protoLen src dest = 0#16)
    (hlen : (packet mem p).length = (packet mem' p').length) {k : Nat}
    (hagree : AgreeOutside (packet mem p) (packet mem' p') k) :
    inetChksumPseudo mem' p' proto protoLen src dest = 0#16 ↔ packet mem p = packet mem' p' ∨
      ∃ v, Constant (packet mem p) k v ∧ Constant (packet mem' p') k (!v) := by
  have hlt : ∀ n, window n k < 65536 := fun n => Nat.mod_lt _ (by decide)
  have hcoprime : Nat.Coprime (65536 - 1) (256 ^ 12 * 2 ^ k) :=
    Nat.Coprime.mul_right (by decide) (Nat.Coprime.pow_right k (by decide))
  have hmem : proto ∈ pseudoHeader proto protoLen src dest ++ packet mem' p' := by
    simp [pseudoHeader]
  have hne := leNat_ne_zero_of_mem hmem hproto
  have hsplit := window_split (leNat (packet mem p)) k
  have hsplit' := window_split (leNat (packet mem' p')) k
  rw [← hagree.low, ← hagree.high] at hsplit'
  generalize hbase : leNat (packet mem p) % 2 ^ k + 2 ^ (k + 16) * (leNat (packet mem p) / 2 ^ (k + 16)) = base
    at hsplit hsplit'
  rw [inetChksumPseudo_eq_zero_iff h, leNat_append, length_pseudoHeader, hsplit, Nat.mul_add, ← Nat.add_assoc,
    ← Nat.mul_assoc] at hchk
  rw [inetChksumPseudo_eq_zero_iff h', and_iff_right hne, leNat_append, length_pseudoHeader, hsplit', Nat.mul_add,
    ← Nat.add_assoc, ← Nat.mul_assoc]
  generalize leNat (pseudoHeader proto protoLen src dest) + 256 ^ 12 * base = rest at hchk
  have hzero := (Nat.modEq_zero_iff_dvd).mpr hchk.2
  have hiff := @window_modEq_iff 65536 _ _ _ rest (by decide) hcoprime (hlt (leNat (packet mem p)))
    (hlt (leNat (packet mem' p')))
  have hdvd : 65535 ∣ rest + 256 ^ 12 * 2 ^ k * window (leNat (packet mem' p')) k ↔
      rest + 256 ^ 12 * 2 ^ k * window (leNat (packet mem p)) k ≡
        rest + 256 ^ 12 * 2 ^ k * window (leNat (packet mem' p')) k [MOD 65536 - 1] :=
    ⟨fun hd => hzero.trans ((Nat.modEq_zero_iff_dvd).mpr hd).symm, fun hm => (Nat.modEq_zero_iff_dvd).mp (hm.symm.trans hzero)⟩
  have hsame : window (leNat (packet mem p)) k = window (leNat (packet mem' p')) k ↔ packet mem p = packet mem' p' := by
    constructor
    · intro hw
      refine leNat_inj hlen ?_
      rw [hsplit, hsplit', hw]
    · intro hp
      rw [hp]
  rw [hdvd, hiff, hsame, window_eq_zero_iff, window_eq_ones_iff, window_eq_ones_iff, window_eq_zero_iff]
  refine or_congr_right ⟨?_, ?_⟩
  · rintro (hc | hc)
    · exact ⟨false, hc⟩
    · exact ⟨true, hc⟩
  · rintro ⟨_ | _, hc⟩
    · exact .inl hc
    · exact .inr hc

theorem inetChksumPseudo_burst_iff_word :
    inetChksumPseudo (ofBytes [7, 8, 0, 0, 9]) [⟨0, 5, 5, .ram, 0⟩] 17#8 5#16 1#32 2#32 = 0#16 ↔
      packet (ofBytes [7, 8, 0xEC, 0xE1, 9]) [⟨0, 5, 5, .ram, 0⟩] = packet (ofBytes [7, 8, 0, 0, 9]) [⟨0, 5, 5, .ram, 0⟩] ∨
        ∃ v, Constant (packet (ofBytes [7, 8, 0xEC, 0xE1, 9]) [⟨0, 5, 5, .ram, 0⟩]) 16 v ∧
          Constant (packet (ofBytes [7, 8, 0, 0, 9]) [⟨0, 5, 5, .ram, 0⟩]) 16 (!v) := by
  refine @inetChksumPseudo_burst_iff (ofBytes [7, 8, 0xEC, 0xE1, 9]) (ofBytes [7, 8, 0, 0, 9]) [⟨0, 5, 5, .ram, 0⟩]
    [⟨0, 5, 5, .ram, 0⟩] (by simp [ShortPbufs]) (by simp [ShortPbufs]) 17#8 (by decide) 5#16 1#32 2#32 (by decide) rfl 16
    fun n hn => ?_
  have hread : ∀ bs : List Byte, bs.length = 5 → packet (ofBytes bs) [⟨0, 5, 5, .ram, 0⟩] = bs := fun bs hbs => by
    have hbytes := read_ofBytes bs
    rw [hbs] at hbytes
    rw [packet, List.flatMap_singleton, StructPbuf.bytes, hbytes]
  rw [hread _ rfl, hread _ rfl]
  rcases hn with hn | hn
  · interval_cases n <;> rfl
  · rcases Nat.lt_or_ge n 40 with h40 | h40
    · interval_cases n <;> rfl
    · obtain ⟨j, rfl⟩ := Nat.exists_eq_add_of_le h40
      have hdiv : (40 + j) / 8 = j / 8 + 5 := by omega
      rw [bit, bit, hdiv]
      rfl

end YlsFirmware
