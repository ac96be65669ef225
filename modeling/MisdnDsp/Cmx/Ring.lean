import Mathlib

/-!
# Ring-buffer arithmetic of the CMX

The CMX keeps every buffer as a ring of `CMX_BUFF_SIZE` entries and computes each index as
`x & CMX_BUFF_MASK`.  The three macros live in `dsp.h`, which is not among the sources; `dsp_cmx.c`
relies only on the size being a power of two and on `CMX_BUFF_HALF` being its half.  So the
development is parametric in the exponent `k`: `CMX_BUFF_HALF = 2^k`, `CMX_BUFF_SIZE = 2^(k+1)`.

* `cmxMask k x` is `x & CMX_BUFF_MASK` for a C `int` `x`, an index below the size (`Ptr k`).
* `cmxMask_val` reads the mask off a window `[j·size, (j+1)·size)` containing `x`; the lemmas after
  it turn the masked sums and differences of the source into linear arithmetic for `omega`.
-/

namespace MisdnDsp

/-- `CMX_BUFF_HALF`. -/
def cmxBuffHalf (k : Nat) : Nat := 2 ^ k

/-- `CMX_BUFF_SIZE`, twice `CMX_BUFF_HALF`. -/
def cmxBuffSize (k : Nat) : Nat := 2 * cmxBuffHalf k

theorem cmxBuffHalf_pos (k : Nat) : 0 < cmxBuffHalf k := Nat.two_pow_pos k

theorem cmxBuffSize_eq (k : Nat) : cmxBuffSize k = 2 * cmxBuffHalf k := rfl

/-- An index into a ring of `CMX_BUFF_SIZE` entries. -/
abbrev Ptr (k : Nat) := Fin (cmxBuffSize k)

instance (k : Nat) : NeZero (cmxBuffSize k) := ⟨by have := cmxBuffHalf_pos k; simp [cmxBuffSize]; omega⟩

/-- `x & CMX_BUFF_MASK` for a C `int` `x`: the size being a power of two, the mask keeps the residue
of `x` modulo the size, for negative `x` too (two's complement). -/
def cmxMask (k : Nat) (x : Int) : Ptr k :=
  ⟨(x % (cmxBuffSize k : Int)).toNat, by
    have h := cmxBuffHalf_pos k
    have h1 := Int.emod_nonneg x (b := (cmxBuffSize k : Int)) (by simp [cmxBuffSize]; omega)
    have h2 := Int.emod_lt_of_pos x (b := (cmxBuffSize k : Int)) (by simp [cmxBuffSize]; omega)
    omega⟩

/-- On a natural number the model's mask is the source's bitwise and with `CMX_BUFF_MASK`. -/
theorem cmxMask_eq_and (k n : Nat) : (cmxMask k n).val = n &&& (cmxBuffSize k - 1) := by
  have e : cmxBuffSize k = 2 ^ (k + 1) := by simp [cmxBuffSize, cmxBuffHalf, Nat.pow_succ, Nat.mul_comm]
  have h := Nat.and_pow_two_sub_one_eq_mod n (k + 1)
  rw [← e] at h
  rw [h]
  show ((n : Int) % (cmxBuffSize k : Int)).toNat = _
  rw [← Int.natCast_mod, Int.toNat_natCast]

variable {k : Nat}

/-- The mask of `x` when `x` lies in the window `[j·size, (j+1)·size)`. -/
theorem cmxMask_val (x j : Int) (h₁ : j * cmxBuffSize k ≤ x) (h₂ : x < j * cmxBuffSize k + cmxBuffSize k) :
    ((cmxMask k x).val : Int) = x - j * cmxBuffSize k := by
  have hx : x % (cmxBuffSize k : Int) = x - j * cmxBuffSize k := by
    have e : x % (cmxBuffSize k : Int) = ((x - j * cmxBuffSize k) + j * cmxBuffSize k) % cmxBuffSize k := by
      congr 1; omega
    rw [e, Int.add_mul_emod_self, Int.emod_eq_of_lt] <;> omega
  simp only [cmxMask, hx]
  omega

@[simp] theorem cmxMask_ptr (a : Ptr k) : cmxMask k a.val = a := by
  apply Fin.ext
  have := cmxMask_val (k := k) a.val 0 (by omega) (by omega)
  omega

/-- `(a + n) & CMX_BUFF_MASK` for an index `a` and `n ≤ CMX_BUFF_SIZE`: one wrap at most. -/
theorem cmxMask_add (a : Ptr k) (n : Nat) (h : n ≤ cmxBuffSize k) :
    (a.val + n < cmxBuffSize k ∧ (cmxMask k (a.val + n)).val = a.val + n) ∨
    (cmxBuffSize k ≤ a.val + n ∧ (cmxMask k (a.val + n)).val = a.val + n - cmxBuffSize k) := by
  by_cases hl : a.val + n < cmxBuffSize k
  · have := cmxMask_val (k := k) (a.val + n) 0 (by omega) (by omega)
    omega
  · have := cmxMask_val (k := k) (a.val + n) 1 (by omega) (by omega)
    omega

/-- `(a - b) & CMX_BUFF_MASK` for two indices: the distance from `b` forward to `a`. -/
theorem cmxMask_sub (a b : Ptr k) :
    (b.val ≤ a.val ∧ (cmxMask k (a.val - b.val)).val = a.val - b.val) ∨
    (a.val < b.val ∧ (cmxMask k (a.val - b.val)).val = a.val + cmxBuffSize k - b.val) := by
  by_cases hl : b.val ≤ a.val
  · have := cmxMask_val (k := k) (a.val - b.val) 0 (by omega) (by omega)
    omega
  · have := cmxMask_val (k := k) (a.val - b.val) (-1) (by omega) (by omega)
    omega

/-- `(a - n) & CMX_BUFF_MASK` for an index `a` and `n ≤ CMX_BUFF_SIZE`: one wrap at most. -/
theorem cmxMask_sub_nat (a : Ptr k) (n : Nat) (h : n ≤ cmxBuffSize k) :
    (n ≤ a.val ∧ (cmxMask k (a.val - n)).val = a.val - n) ∨
    (a.val < n ∧ (cmxMask k (a.val - n)).val = a.val + cmxBuffSize k - n) := by
  by_cases hl : n ≤ a.val
  · have := cmxMask_val (k := k) (a.val - n) 0 (by omega) (by omega)
    omega
  · have := cmxMask_val (k := k) (a.val - n) (-1) (by omega) (by omega)
    omega

/-! ### Residues -/

theorem cmxMask_eq_iff (x y : Int) : cmxMask k x = cmxMask k y ↔ x % cmxBuffSize k = y % cmxBuffSize k := by
  have h0 := Int.emod_nonneg x (b := (cmxBuffSize k : Int)) (by have := cmxBuffHalf_pos k; simp [cmxBuffSize]; omega)
  have h1 := Int.emod_nonneg y (b := (cmxBuffSize k : Int)) (by have := cmxBuffHalf_pos k; simp [cmxBuffSize]; omega)
  simp only [cmxMask, Fin.mk.injEq]
  omega

theorem cmxMask_emod (x : Int) : ((cmxMask k x).val : Int) = x % cmxBuffSize k := by
  have := Int.emod_nonneg x (b := (cmxBuffSize k : Int)) (by have := cmxBuffHalf_pos k; simp [cmxBuffSize]; omega)
  simp only [cmxMask]
  omega

@[simp] theorem cmxMask_val_add (x y : Int) : cmxMask k ((cmxMask k x).val + y) = cmxMask k (x + y) := by
  rw [cmxMask_eq_iff, cmxMask_emod, Int.add_emod, Int.emod_emod, ← Int.add_emod]

@[simp] theorem cmxMask_val_sub (x y : Int) : cmxMask k ((cmxMask k x).val - y) = cmxMask k (x - y) := by
  rw [cmxMask_eq_iff, cmxMask_emod, Int.sub_emod, Int.emod_emod, ← Int.sub_emod]

@[simp] theorem cmxMask_sub_val (x y : Int) : cmxMask k (y - (cmxMask k x).val) = cmxMask k (y - x) := by
  rw [cmxMask_eq_iff, cmxMask_emod, Int.sub_emod, Int.emod_emod, ← Int.sub_emod]

/-- The mask of a value already in range. -/
theorem cmxMask_of_lt (x : Int) (h₀ : 0 ≤ x) (h₁ : x < cmxBuffSize k) : ((cmxMask k x).val : Int) = x := by
  have := cmxMask_val (k := k) x 0 (by omega) (by omega)
  omega

/-- The mask of an expression equal to a natural number in range. -/
theorem cmxMask_eq_of_eq (x : Int) (n : Nat) (h : x = n) (hn : n < cmxBuffSize k) : (cmxMask k x).val = n := by
  have := cmxMask_of_lt (k := k) x (by omega) (by omega)
  omega

/-! ### Walking along the ring -/

/-- `(a + 1) & CMX_BUFF_MASK`, the step of every copy loop of the CMX. -/
def Ptr.next (a : Ptr k) : Ptr k := cmxMask k (a.val + 1)

/-- The index `i` places after `a`. -/
def Ptr.adv (a : Ptr k) (i : Nat) : Ptr k := cmxMask k (a.val + i)

/-- How far the index `p` lies after `w`: `(p - w) & CMX_BUFF_MASK`. -/
def Ptr.off (p w : Ptr k) : Nat := (cmxMask k (p.val - w.val)).val

@[simp] theorem Ptr.adv_zero (a : Ptr k) : a.adv 0 = a := by simp [Ptr.adv]

theorem Ptr.next_adv (a : Ptr k) (i : Nat) : (a.adv i).next = a.adv (i + 1) := by
  simp only [Ptr.next, Ptr.adv, cmxMask_val_add]
  push_cast; rw [Int.add_assoc]

theorem Ptr.adv_next (a : Ptr k) (i : Nat) : a.next.adv i = a.adv (i + 1) := by
  simp only [Ptr.next, Ptr.adv, cmxMask_val_add]
  congr 1; push_cast; omega

theorem Ptr.adv_adv (a : Ptr k) (i j : Nat) : (a.adv i).adv j = a.adv (i + j) := by
  simp only [Ptr.adv, cmxMask_val_add]
  congr 1; push_cast; omega

/-- Within one lap, the offset undoes the walk. -/
theorem Ptr.off_adv (a : Ptr k) (i : Nat) (h : i < cmxBuffSize k) : (a.adv i).off a = i := by
  have e : cmxMask k ((a.adv i).val - a.val) = cmxMask k i := by
    simp only [Ptr.adv, cmxMask_val_sub]; congr 1; omega
  have := cmxMask_of_lt (k := k) i (by omega) (by omega)
  simp only [Ptr.off, e]
  omega

theorem Ptr.adv_off (p w : Ptr k) : w.adv (p.off w) = p := by
  apply Fin.ext
  have e : w.adv (p.off w) = cmxMask k p.val := by
    simp only [Ptr.adv, Ptr.off, cmxMask_emod]
    rw [cmxMask_eq_iff, Int.add_emod, Int.emod_emod, ← Int.add_emod]
    congr 1; omega
  rw [e, cmxMask_ptr]

theorem Ptr.off_lt (p w : Ptr k) : p.off w < cmxBuffSize k := (cmxMask k _).isLt

theorem Ptr.off_self (p : Ptr k) : p.off p = 0 := by
  simpa using Ptr.off_adv p 0 (by have := cmxBuffHalf_pos k; simp [cmxBuffSize]; omega)

theorem Ptr.off_next (p w : Ptr k) (h : p ≠ w) : p.off w.next = p.off w - 1 := by
  have hp : p.off w ≠ 0 := fun h0 => h (by rw [← Ptr.adv_off p w, h0, Ptr.adv_zero])
  have e : p.off w.next = ((w.adv 1).adv (p.off w - 1)).off (w.adv 1) := by
    rw [Ptr.adv_adv, Nat.add_sub_cancel' (by omega), Ptr.adv_off, ← Ptr.next_adv, Ptr.adv_zero]
  rw [e, Ptr.off_adv _ _ (by have := Ptr.off_lt p w; omega)]

/-- Offsets from `w` are differences of offsets from any base `b`. -/
theorem Ptr.off_eq_sub (p w b : Ptr k) : p.off w = (cmxMask k ((p.off b : Int) - w.off b)).val := by
  simp only [Ptr.off, cmxMask_val_sub, cmxMask_sub_val]
  congr 2; omega

/-- Within half a ring after a base `b`, "`p` is at least `CMX_BUFF_HALF` after `w`", the test of
the CMX for "`p` is lower than `w`", orders the two by their offsets from `b`. -/
theorem Ptr.half_le_off_iff (p w b : Ptr k) (hp : p.off b < cmxBuffHalf k) (hw : w.off b < cmxBuffHalf k) :
    cmxBuffHalf k ≤ p.off w ↔ p.off b < w.off b := by
  rw [Ptr.off_eq_sub p w b]
  have := cmxBuffSize_eq k
  rcases cmxMask_sub (k := k) ⟨p.off b, Ptr.off_lt p b⟩ ⟨w.off b, Ptr.off_lt w b⟩ with ⟨h, e⟩ | ⟨h, e⟩ <;>
    dsimp only at h e <;> rw [e] <;> omega

/-- A pointer no earlier than `r` after a base `b` is as far after `r` as their offsets differ. -/
theorem Ptr.off_of_le (p r b : Ptr k) (h : r.off b ≤ p.off b) : p.off r = p.off b - r.off b := by
  rw [Ptr.off_eq_sub p r b]
  exact cmxMask_eq_of_eq _ _ (by omega) (by have := Ptr.off_lt p b; omega)

/-- Two pointers each less than half a ring after the other are equal. -/
theorem Ptr.eq_of_off_lt_half {p q : Ptr k} (h₁ : p.off q < cmxBuffHalf k) (h₂ : q.off p < cmxBuffHalf k) :
    p = q := by
  by_contra hne
  have hp : p.off q ≠ 0 := fun h0 => hne (by rw [← Ptr.adv_off p q, h0, Ptr.adv_zero])
  have e := Ptr.off_eq_sub q p q
  rw [Ptr.off_self] at e
  have := cmxMask_val (k := k) ((0 : Nat) - (p.off q : Int)) (-1) (by have := Ptr.off_lt p q; omega)
    (by omega)
  have := cmxBuffSize_eq k
  omega

end MisdnDsp
