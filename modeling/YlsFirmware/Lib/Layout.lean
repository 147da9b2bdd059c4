import Mathlib.Algebra.GroupWithZero.Nat
import Mathlib.Data.List.Forall2

/-! # Packed layouts

A packed struct is a list of members in declaration order, each an array of units (a scalar is an array
without dimensions). Members follow each other without padding, arrays are stored row by row. In bounds,
two elements of a struct never share a byte (`Struct.eq_of_covers`); out of bounds, an index runs into
whatever member lies there. -/

namespace Packed

/-! ### Offsets of members -/

section Offset
variable {F : Type} [DecidableEq F] (size : F → Nat)

/-- Where member `f` begins when the members `fs` follow each other. -/
def offset : List F → F → Nat
  | [], _ => 0
  | g :: gs, f => if g = f then 0 else size g + offset gs f

def total (fs : List F) : Nat := (fs.map size).sum

variable {fs : List F} {f g : F}

theorem offset_add_size_le (hf : f ∈ fs) : offset size fs f + size f ≤ total size fs := by
  induction fs with
  | nil => cases hf
  | cons h fs ih =>
    simp only [offset, total, List.map_cons, List.sum_cons]
    by_cases he : h = f
    · simp [he]
    · have := ih ((List.mem_cons.mp hf).resolve_left (Ne.symm he))
      simp only [he, if_false, total] at this ⊢
      omega

theorem offset_disjoint (hf : f ∈ fs) (hg : g ∈ fs) (hne : f ≠ g) :
    offset size fs f + size f ≤ offset size fs g ∨ offset size fs g + size g ≤ offset size fs f := by
  induction fs with
  | nil => cases hf
  | cons h fs ih =>
    simp only [offset]
    by_cases hhf : h = f
    · have hhg : h ≠ g := fun e => hne (hhf.symm.trans e)
      left
      simp only [hhf, if_true, Nat.zero_add]
      rw [← hhf, if_neg hhg]
      omega
    · by_cases hhg : h = g
      · right
        rw [if_pos hhg, if_neg hhf, hhg]
        omega
      · have := ih ((List.mem_cons.mp hf).resolve_left (Ne.symm hhf))
          ((List.mem_cons.mp hg).resolve_left (Ne.symm hhg))
        simp only [hhf, hhg, if_false]
        omega

end Offset

/-! ### Arrays -/

/-- The position of an element in an array stored row by row. -/
def flat : List Nat → List Nat → Nat
  | _ :: ds, i :: is => i * ds.prod + flat ds is
  | _, _ => 0

theorem flat_lt {ds is : List Nat} (h : List.Forall₂ (· < ·) is ds) : flat ds is < ds.prod := by
  induction h with
  | nil => simp [flat]
  | @cons i d is ds hi _ ih =>
    have : (i + 1) * ds.prod ≤ d * ds.prod := Nat.mul_le_mul_right _ hi
    rw [Nat.add_mul, Nat.one_mul] at this
    simp only [flat, List.prod_cons]
    omega

theorem flat_inj {ds is js : List Nat} (hi : List.Forall₂ (· < ·) is ds) (hj : List.Forall₂ (· < ·) js ds)
    (h : flat ds is = flat ds js) : is = js := by
  induction hi generalizing js with
  | nil => cases hj; rfl
  | @cons i d is ds _ his ih =>
    cases hj with
    | @cons j _ js _ _ hjs =>
      simp only [flat] at h
      have hli := flat_lt his
      have hlj := flat_lt hjs
      have hpos : 0 < ds.prod := by omega
      have hij : i = j := by
        have hdiv := congrArg (· / ds.prod) h
        simpa [Nat.add_comm _ (flat _ _), Nat.add_mul_div_right _ _ hpos, Nat.div_eq_of_lt hli,
          Nat.div_eq_of_lt hlj] using hdiv
      subst hij
      rw [ih hjs (by omega)]

/-! ### Structs -/

/-- A packed struct: its members in order, the dimensions of each and the size of a unit of it. -/
structure Struct (F : Type) where
  members : List F
  dims : F → List Nat
  unit : F → Nat

/-- An element of a member array, `field[i]..[k]`. -/
structure Elem (F : Type) where
  field : F
  index : List Nat
  deriving DecidableEq

namespace Struct
variable {F : Type} [DecidableEq F] (S : Struct F)

def size (f : F) : Nat := (S.dims f).prod * S.unit f

/-- `sizeof` of the member with `n` indices. -/
def subSize (f : F) (n : Nat) : Nat := ((S.dims f).drop n).prod * S.unit f

/-- The offset that the element's index expression evaluates to, in bounds or not. -/
def addr (e : Elem F) : Nat :=
  offset S.size S.members e.field + flat (S.dims e.field) e.index * S.unit e.field

def InBounds (e : Elem F) : Prop := e.field ∈ S.members ∧ List.Forall₂ (· < ·) e.index (S.dims e.field)

def Covers (e : Elem F) (n : Nat) : Prop := S.addr e ≤ n ∧ n < S.addr e + S.unit e.field

variable {S} {e e' : Elem F} {n : Nat}

theorem covers_field (h : S.InBounds e) (hn : S.Covers e n) :
    offset S.size S.members e.field ≤ n ∧ n < offset S.size S.members e.field + S.size e.field := by
  have hlt := flat_lt h.2
  have hmul : (flat (S.dims e.field) e.index + 1) * S.unit e.field ≤ S.size e.field :=
    Nat.mul_le_mul_right _ hlt
  rw [Nat.add_mul, Nat.one_mul] at hmul
  obtain ⟨h₁, h₂⟩ := hn
  unfold addr at h₁ h₂
  omega

/-- In bounds, an offset lies in one element only. -/
theorem eq_of_covers (h : S.InBounds e) (h' : S.InBounds e') (hn : S.Covers e n) (hn' : S.Covers e' n) :
    e = e' := by
  obtain ⟨f, is⟩ := e
  obtain ⟨g, js⟩ := e'
  have hf := covers_field h hn
  have hg := covers_field h' hn'
  have hfg : f = g := by
    by_contra hne
    rcases offset_disjoint S.size h.1 h'.1 hne with hd | hd <;> simp only at hd hf hg <;> omega
  subst hfg
  obtain ⟨h₁, h₂⟩ := hn
  obtain ⟨h₁', h₂'⟩ := hn'
  simp only [addr] at h₁ h₂ h₁' h₂'
  have key : ∀ a b : Nat, a < b → (a + 1) * S.unit f ≤ b * S.unit f := fun a b hab =>
    Nat.mul_le_mul_right _ hab
  have hflat : flat (S.dims f) is = flat (S.dims f) js := by
    rcases Nat.lt_trichotomy (flat (S.dims f) is) (flat (S.dims f) js) with hlt | heq | hlt
    · have := key _ _ hlt
      rw [Nat.add_mul, Nat.one_mul] at this
      omega
    · exact heq
    · have := key _ _ hlt
      rw [Nat.add_mul, Nat.one_mul] at this
      omega
  have hidx : is = js := flat_inj h.2 h'.2 hflat
  rw [hidx]

end Struct

end Packed
