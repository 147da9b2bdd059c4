import Mathlib.Logic.Function.Basic
import Mathlib.Tactic.SplitIfs

/-! # Byte memory

A memory is a function from offsets to bytes. It is read byte by byte, as little-endian halfwords, or
bit by bit (`bit`), where bit 0 is the least significant bit of byte 0. Bit-fields of packed structs are
ranges of bits; a store to one changes the bits of its range only. -/

namespace Packed

abbrev Byte := BitVec 8
abbrev Memory := Nat → Byte

/-- The bits `f 0`, .., `f (w - 1)`, least significant first. -/
def ofBits (w : Nat) (f : Nat → Bool) : BitVec w :=
  (BitVec.ofBoolListLE ((List.range w).map f)).setWidth w

@[simp] theorem getLsbD_ofBits (w : Nat) (f : Nat → Bool) (i : Nat) :
    (ofBits w f).getLsbD i = (decide (i < w) && f i) := by
  rw [ofBits, BitVec.getLsbD_setWidth, BitVec.getLsbD_ofBoolListLE, List.getD_eq_getElem?_getD]
  by_cases h : i < w <;> simp [h]

/-! ### Bits -/

def bit (m : Memory) (n : Nat) : Bool := (m (n / 8)).getLsbD (n % 8)

theorem bit_of_byte {m m' : Memory} {n : Nat} (h : m (n / 8) = m' (n / 8)) : bit m n = bit m' n := by
  simp only [bit, h]

theorem byte_ext {m m' : Memory} {o : Nat} (h : ∀ n, n / 8 = o → bit m n = bit m' n) : m o = m' o := by
  apply BitVec.eq_of_getLsbD_eq
  intro i hi
  have hd : (8 * o + i) / 8 = o := by omega
  have hm : (8 * o + i) % 8 = i := by omega
  simpa only [bit, hd, hm] using h (8 * o + i) hd

theorem ext_bit {m m' : Memory} (h : ∀ n, bit m n = bit m' n) : m = m' :=
  funext fun _ => byte_ext fun n _ => h n

@[simp] theorem bit_zero (n : Nat) : bit (fun _ => 0#8) n = false := by
  simp [bit]

/-! ### Ranges of bytes -/

/-- The memory after `bs` is stored at `o`, .., `o + bs.length - 1`. -/
def write (m : Memory) (o : Nat) (bs : List Byte) : Memory := fun i =>
  if o ≤ i ∧ i < o + bs.length then bs.getD (i - o) 0 else m i

theorem write_of_lt {m : Memory} {o i : Nat} {bs : List Byte} (h : i < o) : write m o bs i = m i := by
  simp [write, show ¬ o ≤ i by omega]

theorem write_of_ge {m : Memory} {o i : Nat} {bs : List Byte} (h : o + bs.length ≤ i) :
    write m o bs i = m i := by
  simp [write, show ¬ i < o + bs.length by omega]

theorem write_outside {m : Memory} {o i : Nat} {bs : List Byte} (h : ¬ (o ≤ i ∧ i < o + bs.length)) :
    write m o bs i = m i := if_neg h

theorem write_at {m : Memory} {o k : Nat} {bs : List Byte} (h : k < bs.length) :
    write m o bs (o + k) = bs.getD k 0 := by
  simp [write, h]

@[simp] theorem write_nil (m : Memory) (o : Nat) : write m o [] = m := by
  funext i
  rcases Nat.lt_or_ge i o with h | h
  · exact write_of_lt h
  · exact write_of_ge (by simpa using h)

/-- The second of two stores of one length hides the first. -/
theorem write_write_same (m : Memory) (o : Nat) {as bs : List Byte} (h : as.length = bs.length) :
    write (write m o as) o bs = write m o bs := by
  funext i
  by_cases hi : o ≤ i ∧ i < o + bs.length
  · obtain ⟨k, rfl⟩ := Nat.exists_eq_add_of_le hi.1
    have hk : k < bs.length := by omega
    rw [write_at hk, write_at hk]
  · rw [write_outside hi, write_outside hi, write_outside (h ▸ hi)]

theorem write_write_append (m : Memory) (o : Nat) (as bs : List Byte) :
    write (write m o as) (o + as.length) bs = write m o (as ++ bs) := by
  funext i
  rcases Nat.lt_or_ge i o with h | h
  · rw [write_of_lt (by omega), write_of_lt h, write_of_lt h]
  rcases Nat.lt_or_ge i (o + as.length) with h₁ | h₁
  · obtain ⟨k, rfl⟩ := Nat.exists_eq_add_of_le h
    have hk : k < as.length := by omega
    rw [write_of_lt h₁, write_at hk, write_at (by simp; omega)]
    simp [List.getD_eq_getElem?_getD, List.getElem?_append_left hk]
  rcases Nat.lt_or_ge i (o + as.length + bs.length) with h₂ | h₂
  · obtain ⟨k, rfl⟩ := Nat.exists_eq_add_of_le h₁
    have hk : k < bs.length := by omega
    rw [write_at hk, Nat.add_assoc o, write_at (by simp; omega)]
    simp [List.getD_eq_getElem?_getD, List.getElem?_append_right]
  · rw [write_of_ge h₂, write_of_ge h₁, write_of_ge (by simp; omega)]

/-- A byte stored behind others that the memory holds. -/
theorem write_concat {m : Memory} {o : Nat} {bs : List Byte} (h : ∀ k, (hk : k < bs.length) → m (o + k) = bs[k])
    (b : Byte) (k : Nat) (hk : k < (bs ++ [b]).length) : write m (o + bs.length) [b] (o + k) = (bs ++ [b])[k] := by
  rw [List.length_append, List.length_singleton] at hk
  rcases Nat.lt_or_eq_of_le (Nat.le_of_lt_succ hk) with hlt | rfl
  · rw [List.getElem_append_left hlt, write_of_lt (Nat.add_lt_add_left hlt _), h k hlt]
  · rw [List.getElem_concat_length rfl]
    exact @write_at m (o + bs.length) 0 [b] Nat.zero_lt_one

def read (m : Memory) (o n : Nat) : List Byte := (List.range n).map fun i => m (o + i)

@[simp] theorem length_read (m : Memory) (o n : Nat) : (read m o n).length = n := by
  simp [read]

theorem read_eq_read_iff {m m' : Memory} {o n : Nat} :
    read m o n = read m' o n ↔ ∀ i < n, m (o + i) = m' (o + i) := by
  simp [read, List.map_inj_left]

theorem read_eq_iff {m : Memory} {o n : Nat} {bs : List Byte} (hn : bs.length = n) :
    read m o n = bs ↔ ∀ i < n, m (o + i) = bs.getD i 0 := by
  constructor
  · rintro rfl i hi
    simp [read, List.getD_eq_getElem?_getD, hi]
  · intro h
    refine List.ext_getElem (by rw [length_read, hn]) fun i h₁ h₂ => ?_
    have hi : i < n := hn ▸ h₂
    simpa [read, List.getD_eq_getElem?_getD, h₂] using h i hi

theorem read_update {m : Memory} {bs : List Byte} (h : read m 0 bs.length = bs) (v : Byte) :
    read (Function.update m bs.length v) 0 (bs.length + 1) = bs ++ [v] := by
  have hbs : read (Function.update m bs.length v) 0 bs.length = read m 0 bs.length := by
    refine read_eq_read_iff.mpr fun i hi => ?_
    rw [Function.update_of_ne (by omega)]
  rw [read, List.range_succ, List.map_append, ← read, hbs, h]
  simp

theorem read_write (m : Memory) (o : Nat) (bs : List Byte) : read (write m o bs) o bs.length = bs :=
  (read_eq_iff rfl).mpr fun _ hi => write_at hi

theorem getElem?_read {m : Memory} {o n i : Nat} (h : i < n) : (read m o n)[i]? = some (m (o + i)) := by
  simp [read, h]

theorem read_add (mem : Memory) (o m n : Nat) : read mem o (m + n) = read mem o m ++ read mem (o + m) n := by
  rw [read, List.range_add, List.map_append, List.map_map]
  refine congrArg₂ _ rfl (List.map_congr_left fun i _ => ?_)
  rw [Function.comp_apply, Nat.add_assoc]

theorem read_succ (mem : Memory) (o n : Nat) : read mem o (n + 1) = mem o :: read mem (o + 1) n := by
  rw [Nat.add_comm, read_add]
  rfl

/-- A prefix of what is read. -/
theorem take_read (mem : Memory) (o : Nat) {m n : Nat} (h : m ≤ n) : (read mem o n).take m = read mem o m := by
  obtain ⟨k, rfl⟩ := Nat.exists_eq_add_of_le h
  rw [read_add, List.take_left' (length_read _ _ _)]

/-- What is written elsewhere is not read. -/
theorem read_write_disjoint {m : Memory} {o o' n : Nat} {bs : List Byte} (h : o + n ≤ o' ∨ o' + bs.length ≤ o) :
    read (write m o' bs) o n = read m o n :=
  read_eq_read_iff.mpr fun i hi => write_outside (by omega)

theorem read_eq_append_iff {mem : Memory} {o m n : Nat} {as bs : List Byte} (h : as.length = m) :
    read mem o (m + n) = as ++ bs ↔ read mem o m = as ∧ read mem (o + m) n = bs := by
  rw [read_add]
  constructor
  · intro heq
    exact List.append_inj heq (by rw [length_read, h])
  · rintro ⟨has, hbs⟩
    rw [has, hbs]

/-- Bytes written behind what is read are read behind it. -/
theorem read_write_append (m : Memory) (o n : Nat) (bs : List Byte) :
    read (write m (o + n) bs) o (n + bs.length) = read m o n ++ bs := by
  rw [read, List.range_add, List.map_append, List.map_map]
  congr 1
  · exact List.map_congr_left fun i hi => write_of_lt (Nat.add_lt_add_left (List.mem_range.mp hi) _)
  · refine Eq.trans (List.map_congr_left fun i _ => ?_) (read_write m (o + n) bs)
    rw [Function.comp_apply, Nat.add_assoc]

/-- The memory that begins with the bytes. -/
def ofBytes (bs : List Byte) : Memory := fun i => bs.getD i 0

theorem read_ofBytes (bs : List Byte) : read (ofBytes bs) 0 bs.length = bs :=
  (read_eq_iff rfl).mpr fun i _ => by rw [Nat.zero_add, ofBytes]

theorem ofBytes_read (m : Memory) {n i : Nat} (h : i < n) : ofBytes (read m 0 n) i = m i := by
  rw [ofBytes, ← (read_eq_iff (length_read m 0 n)).mp rfl i h, Nat.zero_add]

/-- The bytes read determine a byte of the memory exactly if it is among them. -/
theorem determined_by_read_iff {o n i : Nat} :
    (∃ decode : List Byte → Byte, ∀ m, decode (read m o n) = m i) ↔ o ≤ i ∧ i < o + n := by
  constructor
  · rintro ⟨decode, h⟩
    by_contra hout
    have hread : read (Function.update (fun _ => 0) i 1) o n = read (fun _ => 0) o n := by
      refine read_eq_read_iff.mpr fun k hk => Function.update_of_ne ?_ _ _
      rintro rfl
      exact hout ⟨Nat.le_add_right _ _, Nat.add_lt_add_left hk _⟩
    have hone := h (Function.update (fun _ => 0) i 1)
    rw [hread, h, Function.update_self] at hone
    exact absurd hone (by decide)
  · rintro ⟨hlo, hhi⟩
    obtain ⟨k, rfl⟩ := Nat.exists_eq_add_of_le hlo
    refine ⟨fun bs => bs.getD k 0, fun m => ?_⟩
    exact ((read_eq_iff (length_read m o n)).mp rfl k (Nat.lt_of_add_lt_add_left hhi)).symm

/-- A store leaves a memory as it is exactly if the range already holds the bytes. -/
theorem write_eq_self_iff {m : Memory} {o : Nat} {bs : List Byte} :
    write m o bs = m ↔ read m o bs.length = bs := by
  constructor
  · intro h
    rw [← h, read_write]
  · intro h
    funext i
    by_cases hi : o ≤ i ∧ i < o + bs.length
    · obtain ⟨k, rfl⟩ := Nat.exists_eq_add_of_le hi.1
      have hk : k < bs.length := by omega
      rw [write_at hk, (read_eq_iff rfl).mp h k hk]
    · simp [write, hi]

/-- The bytes from `e` on, `old` before, after `bs` is stored at `o`. -/
def overlay (old : List Byte) (e o : Nat) (bs : List Byte) : List Byte :=
  read (write (fun i => old.getD (i - e) 0) o bs) e old.length

theorem read_write_eq_overlay (m : Memory) (e n o : Nat) (bs : List Byte) :
    read (write m o bs) e n = overlay (read m e n) e o bs := by
  rw [overlay, length_read]
  refine read_eq_read_iff.mpr fun i hi => ?_
  have hold : (read m e n).getD (e + i - e) 0 = m (e + i) := by
    rw [Nat.add_sub_cancel_left]
    exact ((read_eq_iff (length_read m e n)).mp rfl i hi).symm
  simp only [write, hold]

theorem bit_write_of_lt {m : Memory} {o n : Nat} {bs : List Byte} (h : n < 8 * o) :
    bit (write m o bs) n = bit m n :=
  bit_of_byte (write_of_lt (by omega))

/-! ### Halfwords -/

/-- The two bytes of a halfword in memory order (little-endian). -/
def bytes16 (v : BitVec 16) : List Byte := [v.setWidth 8, (v >>> 8).setWidth 8]

@[simp] theorem length_bytes16 (v : BitVec 16) : (bytes16 v).length = 2 := rfl

def bytes32 (v : BitVec 32) : List Byte := bytes16 (v.setWidth 16) ++ bytes16 ((v >>> 16).setWidth 16)

@[simp] theorem length_bytes32 (v : BitVec 32) : (bytes32 v).length = 4 := rfl

def load16 (m : Memory) (o : Nat) : BitVec 16 := m (o + 1) ++ m o

def load32 (m : Memory) (o : Nat) : BitVec 32 := load16 m (o + 2) ++ load16 m o

theorem getLsbD_load16 (m : Memory) (o i : Nat) :
    (load16 m o).getLsbD i = if i < 8 then (m o).getLsbD i else (m (o + 1)).getLsbD (i - 8) :=
  BitVec.getLsbD_append

theorem bytes16_load16 (m : Memory) (o : Nat) : bytes16 (load16 m o) = [m o, m (o + 1)] := by
  have hlo : (load16 m o).setWidth 8 = m o := by
    apply BitVec.eq_of_getLsbD_eq
    intro i hi
    rw [BitVec.getLsbD_setWidth, getLsbD_load16, if_pos hi]
    simp [hi]
  have hhi : (load16 m o >>> 8).setWidth 8 = m (o + 1) := by
    apply BitVec.eq_of_getLsbD_eq
    intro i hi
    rw [BitVec.getLsbD_setWidth, BitVec.getLsbD_ushiftRight, getLsbD_load16, if_neg (by omega), Nat.add_sub_cancel_left]
    simp [hi]
  rw [bytes16, hlo, hhi]

/-- A halfword is its high byte in front of its low byte. -/
theorem append_setWidth_half {w : Nat} (v : BitVec (w + w)) : (v >>> w).setWidth w ++ v.setWidth w = v := by
  apply BitVec.eq_of_getLsbD_eq
  intro i hi
  rw [BitVec.getLsbD_append]
  split_ifs with hw
  · rw [BitVec.getLsbD_setWidth]
    simp [hw]
  · rw [BitVec.getLsbD_setWidth, BitVec.getLsbD_ushiftRight, Nat.add_sub_cancel' (by omega)]
    simp [show i - w < w by omega]

theorem append_setWidth (v : BitVec 16) : (v >>> 8).setWidth 8 ++ v.setWidth 8 = v := @append_setWidth_half 8 v

theorem append_inj {a b c d : Byte} : a ++ b = c ++ d ↔ a = c ∧ b = d := by
  constructor
  · intro h
    have bits : ∀ i, (a ++ b).getLsbD i = (c ++ d).getLsbD i := fun i => by rw [h]
    simp only [BitVec.getLsbD_append] at bits
    constructor <;> apply BitVec.eq_of_getLsbD_eq <;> intro i hi
    · simpa [show ¬ 8 + i < 8 by omega] using bits (8 + i)
    · simpa [hi] using bits i
  · rintro ⟨rfl, rfl⟩
    rfl

theorem load16_eq_of_read {m : Memory} {o : Nat} {v : BitVec 16} (h : read m o 2 = bytes16 v) : load16 m o = v := by
  have hbytes : [m o, m (o + 1)] = [v.setWidth 8, (v >>> 8).setWidth 8] := h
  obtain ⟨hlo, hhi⟩ := List.cons_eq_cons.mp hbytes
  rw [load16, hlo, (List.cons_eq_cons.mp hhi).1, append_setWidth]

theorem load32_eq_of_read {m : Memory} {o : Nat} {v : BitVec 32} (h : read m o 4 = bytes32 v) : load32 m o = v := by
  obtain ⟨hlo, hhi⟩ := (@read_eq_append_iff m o 2 2 _ _ (length_bytes16 _)).mp h
  rw [load32, load16_eq_of_read hlo, load16_eq_of_read hhi]
  exact @append_setWidth_half 16 v

/-! ### Bit-fields -/

theorem getLsbD_one_shiftLeft {w i : Nat} (h : i < w) (k : Nat) : (1#w <<< k).getLsbD i = decide (i = k) := by
  have hpow : (1#w <<< k).getLsbD i = (decide (k < w) && decide (k = i)) := BitVec.getLsbD_twoPow k i
  rw [hpow]
  by_cases hk : i = k
  · subst hk
    simp [h]
  · simp [hk, Ne.symm hk]

/-- A bit-field of a packed struct: the bits `offset`, .., `offset + width - 1`. -/
structure BitField where
  offset : Nat
  width : Nat

namespace BitField
variable (f : BitField) (m : Memory)

def Covers (n : Nat) : Prop := f.offset ≤ n ∧ n < f.offset + f.width

instance (n : Nat) : Decidable (f.Covers n) := inferInstanceAs (Decidable (_ ∧ _))

/-- The value of the field, promoted to a 32-bit integer. -/
def get : BitVec 32 := ofBits 32 fun i => decide (i < f.width) && bit m (f.offset + i)

/-- Storing `v` in the field keeps the low `width` bits of `v`. -/
def put (v : BitVec 32) : Memory := fun i => ofBits 8 fun j =>
  if f.Covers (8 * i + j) then v.getLsbD (8 * i + j - f.offset) else (m i).getLsbD j

/-- `f |= 1 << n` -/
def orBit (n : Nat) : Memory := f.put m (f.get m ||| 1#32 <<< n)

/-- `f &= ~(1 << n)` -/
def andNotBit (n : Nat) : Memory := f.put m (f.get m &&& ~~~(1#32 <<< n))

theorem bit_put (v : BitVec 32) (n : Nat) :
    bit (f.put m v) n = if f.Covers n then v.getLsbD (n - f.offset) else bit m n := by
  have h : 8 * (n / 8) + n % 8 = n := by omega
  rw [bit, put, getLsbD_ofBits, h]
  simp [Nat.mod_lt, bit]

/-- A store to a field leaves the bytes after it alone. -/
theorem put_of_ge {o : Nat} (h : f.offset + f.width ≤ 8 * o) (v : BitVec 32) : f.put m v o = m o := by
  refine byte_ext fun n hn => ?_
  have hout : ¬ f.Covers n := by
    rintro ⟨-, hlt⟩
    omega
  rw [bit_put, if_neg hout]

variable {f m} (hw : f.width ≤ 32)
include hw

theorem bit_orBit (k n : Nat) :
    bit (f.orBit m k) n = (bit m n || decide (n = f.offset + k ∧ k < f.width)) := by
  rw [orBit, bit_put]
  by_cases h : f.Covers n
  · obtain ⟨i, rfl⟩ := Nat.exists_eq_add_of_le h.1
    have hi : i < f.width := by have := h.2; omega
    have h32 : i < 32 := by omega
    have hmask : (1#32 <<< k).getLsbD i = decide (i = k) := getLsbD_one_shiftLeft h32 k
    rw [if_pos h, BitVec.getLsbD_or, Nat.add_sub_cancel_left, hmask, get, getLsbD_ofBits]
    by_cases hk : i = k
    · subst hk
      simp [hi]
    · simp [hi, h32, hk]
  · rw [if_neg h]
    have hne : ¬ (n = f.offset + k ∧ k < f.width) := by
      rintro ⟨rfl, hk⟩
      exact h ⟨by omega, by omega⟩
    simp [hne]

theorem bit_andNotBit (k n : Nat) :
    bit (f.andNotBit m k) n = (bit m n && !decide (n = f.offset + k ∧ k < f.width)) := by
  rw [andNotBit, bit_put]
  by_cases h : f.Covers n
  · obtain ⟨i, rfl⟩ := Nat.exists_eq_add_of_le h.1
    have hi : i < f.width := by have := h.2; omega
    have h32 : i < 32 := by omega
    have hmask : (1#32 <<< k).getLsbD i = decide (i = k) := getLsbD_one_shiftLeft h32 k
    rw [if_pos h, BitVec.getLsbD_and, BitVec.getLsbD_not, Nat.add_sub_cancel_left, hmask, get, getLsbD_ofBits]
    by_cases hk : i = k
    · subst hk
      simp [hi]
    · simp [hi, h32, hk]
  · rw [if_neg h]
    have hne : ¬ (n = f.offset + k ∧ k < f.width) := by
      rintro ⟨rfl, hk⟩
      exact h ⟨by omega, by omega⟩
    simp [hne]

end BitField

end Packed
