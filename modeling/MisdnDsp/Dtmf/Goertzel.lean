import MisdnDsp.Dtmf.Decode

/-!
# Overflow in the Goertzel loop (lines 129-147)

Without the floor of `>> 15` and the samples, the loop maps `(sk1, sk2)` to
`(c/2^15 * sk1 - sk2, sk1)`, which keeps `sk1² - c/2^15 * sk1 * sk2 + sk2²`; for `c < 2^16` that
form is positive definite, and its square root is a norm.  `energy c u v` is `2^15` times the form,
in integers.  A sample of a `signed short` and the floor of `>> 15` add at most `32769` to the
norm per pass, so after `n` samples the energy is at most `2^15 (32769 n)²`; for the frame of
`DSP_DTMF_NPOINTS = 102` samples and the eight `cos2pik` this bounds every state below `2^23` and
the power of lines 143-146 below `2^31`.

`goertzelLoopLong w` and `goertzelLong w` are the loop and the power with a `signed long` of `w`
bits.  `cos2pik` is `signed long long`, so the products with it and the sums they enter are
`signed long long`, kept exact here; what is stored in a `signed long`, and the products
`sk * sk` and `sk2 * sk2` of two `signed long`s, wrap as two's complement does.

* `energy_add_le`: the triangle inequality for the energy, without square roots;
* `energy_step`: one pass of lines 134-136;
* `goertzelLoop_energy`: the run of the loop, by induction on the samples;
* `goertzel_fits_long`: no state reaches the warning of lines 140-141, every state and the power
  fit in 32 bits, and a kernel with a `signed long` of any width from 32 bits on computes the same
  coefficients.
-/

namespace MisdnDsp

/-- `2^15` times the form `u² - c/2^15 * u * v + v²` that the linear part of the loop keeps. -/
def energy (c u v : Int) : Int := 32768 * u ^ 2 - c * u * v + 32768 * v ^ 2

/-- Conversion to a `signed long` of `w` bits, two's complement. -/
def toLong (w : Nat) (x : Int) : Int := x.bmod (2 ^ w)

/-- The loop of lines 133-137 with a `signed long` of `w` bits: the right side of line 134 is a
`signed long long`, and it wraps when it is stored in `sk`. -/
def goertzelLoopLong (w : Nat) (c : Int) (buf : Nat → Int) : Nat → Int × Int × Int
  | 0 => (0, 0, 0)
  | n + 1 =>
    let r := goertzelLoopLong w c buf n
    let sk := toLong w (((c * r.2.1) >>> 15) - r.2.2 + buf n)
    (sk, sk, r.2.1)

/-- Lines 131-146 with a `signed long` of `w` bits: `sk * sk` and `sk2 * sk2` are products of two
`signed long`s, the middle term is a `signed long long`, and the sum wraps when it is stored in
`result[k]`. -/
def goertzelLong (w npoints : Nat) (buf : Nat → Int) (c : Int) : Int :=
  let r := goertzelLoopLong w c buf npoints
  let sk := r.1 >>> 8
  let sk2 := r.2.2 >>> 8
  toLong w (toLong w (sk * sk) - ((c * sk) >>> 15) * sk2 + toLong w (sk2 * sk2))

/-- The condition of the warning at lines 140-141. -/
def goertzelOverflow (npoints : Nat) (buf : Nat → Int) (c : Int) : Bool :=
  let r := goertzelLoop c buf npoints
  let sk := r.1 >>> 8
  let sk2 := r.2.2 >>> 8
  sk > 32767 || sk < -32767 || sk2 > 32767 || sk2 < -32767

/-! ### The energy -/

section Energy

variable {c : Int}

theorem energy_comm (c u v : Int) : energy c u v = energy c v u := by
  unfold energy; ring

/-- Completing the square in `v`. -/
theorem energy_sq (c u v : Int) :
    131072 * energy c u v = (65536 * v - c * u) ^ 2 + (65536 ^ 2 - c ^ 2) * u ^ 2 := by
  unfold energy; ring

theorem sq_le_energy (c u v : Int) : (65536 ^ 2 - c ^ 2) * u ^ 2 ≤ 131072 * energy c u v := by
  rw [energy_sq]; exact le_add_of_nonneg_left (sq_nonneg _)

theorem energy_nonneg (hc : c ^ 2 ≤ 65536 ^ 2) (u v : Int) : 0 ≤ energy c u v := by
  have := sq_le_energy c u v
  have := mul_nonneg (sub_nonneg.2 hc) (sq_nonneg u)
  omega

/-- Cauchy-Schwarz for the energy, as an identity. -/
theorem energy_polar (c p₁ p₂ q₁ q₂ : Int) :
    4 * energy c p₁ p₂ * energy c q₁ q₂ -
        (energy c (p₁ + q₁) (p₂ + q₂) - energy c p₁ p₂ - energy c q₁ q₂) ^ 2 =
      (65536 ^ 2 - c ^ 2) * (p₁ * q₂ - p₂ * q₁) ^ 2 := by
  unfold energy; ring

/-- The triangle inequality: energies at most `m A²` and `m B²` add up to at most `m (A + B)²`. -/
theorem energy_add_le (hc : c ^ 2 ≤ 65536 ^ 2) {m A B p₁ p₂ q₁ q₂ : Int} (hm : 0 ≤ m)
    (hA : 0 ≤ A) (hB : 0 ≤ B) (hp : energy c p₁ p₂ ≤ m * A ^ 2)
    (hq : energy c q₁ q₂ ≤ m * B ^ 2) :
    energy c (p₁ + q₁) (p₂ + q₂) ≤ m * (A + B) ^ 2 := by
  have hP := energy_nonneg hc p₁ p₂
  have hQ := energy_nonneg hc q₁ q₂
  have hsq : (energy c (p₁ + q₁) (p₂ + q₂) - energy c p₁ p₂ - energy c q₁ q₂) ^ 2 ≤
      (2 * m * A * B) ^ 2 := calc
    _ ≤ 4 * energy c p₁ p₂ * energy c q₁ q₂ := by
      have := mul_nonneg (sub_nonneg.2 hc) (sq_nonneg (p₁ * q₂ - p₂ * q₁))
      linarith [energy_polar c p₁ p₂ q₁ q₂]
    _ ≤ 4 * (m * A ^ 2) * (m * B ^ 2) := by gcongr
    _ = (2 * m * A * B) ^ 2 := by ring
  have hX := (abs_le_of_sq_le_sq' hsq (by positivity)).2
  calc energy c (p₁ + q₁) (p₂ + q₂) ≤ m * A ^ 2 + m * B ^ 2 + 2 * m * A * B := by linarith
    _ = m * (A + B) ^ 2 := by ring

/-- The rotation `(u, v) ↦ (c u - 2^15 v, 2^15 u)`, `2^15` times the linear part of the loop,
multiplies the energy by `2^30`. -/
theorem energy_rotate (c u v : Int) :
    energy c (c * u - 32768 * v) (32768 * u) = 32768 ^ 2 * energy c u v := by
  unfold energy; ring

theorem energy_smul (c k u v : Int) : energy c (k * u) (k * v) = k ^ 2 * energy c u v := by
  unfold energy; ring

/-- One pass of lines 134-136 from `(sk1, sk2) = (u, v)` with a sample `x` of a `signed short`
adds at most `32769` to the norm. -/
theorem energy_step (hc : c ^ 2 ≤ 65536 ^ 2) {A u v x : Int} (hA : 0 ≤ A)
    (h : energy c u v ≤ 32768 * A ^ 2) (hx₁ : -32768 ≤ x) (hx₂ : x ≤ 32767) :
    energy c ((c * u) >>> 15 - v + x) u ≤ 32768 * (A + 32769) ^ 2 := by
  -- the floor of `>> 15` drops `ρ ∈ [0, 2^15)`
  have hρ := Int.ediv_add_emod (c * u) 32768
  have hρ₁ := Int.emod_nonneg (c * u) (by decide : (32768 : Int) ≠ 0)
  have hρ₂ := Int.emod_lt_of_pos (c * u) (by decide : (0 : Int) < 32768)
  -- `2^15` times the new state is the rotated state plus the input `2^15 x - ρ`
  have hsum : c * u - 32768 * v + (32768 * x - c * u % 32768) =
      (32768 : Int) * ((c * u) >>> (15 : Int) - v + x) := by
    rw [show (15 : Int) = ((15 : Nat) : Int) from rfl, shr_eq_div]
    omega
  have hin : energy c (32768 * x - c * u % 32768) 0 ≤ 32768 * (32768 * 32769) ^ 2 := calc
    _ = 32768 * (32768 * x - c * u % 32768) ^ 2 := by unfold energy; ring
    _ ≤ 32768 * (32768 * 32769) ^ 2 :=
      mul_le_mul_of_nonneg_left (sq_le_sq' (by omega) (by omega)) (by norm_num)
  have hrot : energy c (c * u - 32768 * v) (32768 * u) ≤ 32768 * (32768 * A) ^ 2 := calc
    _ = 32768 ^ 2 * energy c u v := energy_rotate c u v
    _ ≤ 32768 ^ 2 * (32768 * A ^ 2) := mul_le_mul_of_nonneg_left h (by norm_num)
    _ = 32768 * (32768 * A) ^ 2 := by ring
  have key := energy_add_le hc (by norm_num) (by positivity) (by norm_num) hrot hin
  rw [hsum, add_zero, energy_smul,
    show (32768 : Int) * (32768 * A + 32768 * 32769) ^ 2 = 32768 ^ 2 * (32768 * (A + 32769) ^ 2) by
      ring] at key
  exact le_of_mul_le_mul_left key (by norm_num)

end Energy

/-! ### The frame of 102 samples -/

theorem cos2pik_bounds : ∀ c ∈ cos2pik, 0 ≤ c ∧ c ≤ 55960 := by decide

theorem sq_le_of_mem_cos2pik {c : Int} (hc : c ∈ cos2pik) : c ^ 2 ≤ 65536 ^ 2 :=
  pow_le_pow_left₀ (cos2pik_bounds c hc).1 (by linarith [(cos2pik_bounds c hc).2]) 2

theorem goertzelLoop_fst (c : Int) (buf : Nat → Int) (n : Nat) :
    (goertzelLoop c buf n).1 = (goertzelLoop c buf n).2.1 := by
  cases n <;> rfl

/-- After `n` samples of `signed short`s the energy of `(sk1, sk2)` is at most `2^15 (32769 n)²`. -/
theorem goertzelLoop_energy {c : Int} (hc : c ^ 2 ≤ 65536 ^ 2) (buf : Nat → Int) :
    ∀ n, (∀ j < n, -32768 ≤ buf j ∧ buf j ≤ 32767) →
      energy c (goertzelLoop c buf n).2.1 (goertzelLoop c buf n).2.2 ≤ 32768 * (32769 * n) ^ 2
  | 0, _ => by simp [goertzelLoop, energy]
  | n + 1, h => by
    have ih := goertzelLoop_energy hc buf n fun j hj => h j (by omega)
    have := energy_step hc (by positivity) ih (h n (by omega)).1 (h n (by omega)).2
    rw [show (32769 : Int) * ((n + 1 : Nat) : Int) = 32769 * n + 32769 by push_cast; ring]
    exact this

/-- States of energy at most `2^15 K²`, for `K` up to that of 102 samples, lie in
`(-8388352, 8388352)`. -/
theorem lt_of_energy_le {c u v K : Int} (hc : c ∈ cos2pik) (hK₀ : 0 ≤ K) (hK : K ≤ 32769 * 102)
    (h : energy c u v ≤ 32768 * K ^ 2) : -8388352 < u ∧ u < 8388352 := by
  have h₁ := sq_le_energy c u v
  have h₂ : K ^ 2 ≤ (32769 * 102) ^ 2 := pow_le_pow_left₀ hK₀ hK 2
  have hc₂ : c ^ 2 ≤ 55960 ^ 2 := pow_le_pow_left₀ (cos2pik_bounds c hc).1 (cos2pik_bounds c hc).2 2
  have h₃ : 1163445696 * u ^ 2 ≤ (65536 ^ 2 - c ^ 2) * u ^ 2 :=
    mul_le_mul_of_nonneg_right (by linarith) (sq_nonneg u)
  exact abs_lt_of_sq_lt_sq' (by linarith) (by norm_num)

theorem shr8_bounds {s : Int} (h₁ : -8388352 < s) (h₂ : s < 8388352) :
    (-32767 : Int) ≤ s >>> 8 ∧ s >>> 8 ≤ (32767 : Int) := by
  rw [show (8 : Int) = ((8 : Nat) : Int) from rfl, shr_eq_div]
  norm_num
  omega

/-- The power of lines 143-146 from states of energy at most `2^15 K²` fits in 32 bits: `2^15`
times it is the energy of `(sk, sk2)` plus the floor of `>> 15` times `sk2`, and the energy of
`(sk, sk2)` is that of the states, up to the floor of `>> 8`, over `2^16`. -/
theorem power_lt_of_energy_le {c s s' K : Int} (hc : c ∈ cos2pik) (hK₀ : 0 ≤ K)
    (hK : K ≤ 32769 * 102) (h : energy c s s' ≤ 32768 * K ^ 2) :
    (-2 ^ 31 : Int) ≤
        (s >>> 8) * (s >>> 8) - ((c * (s >>> 8)) >>> 15) * (s' >>> 8) + (s' >>> 8) * (s' >>> 8) ∧
      (s >>> 8) * (s >>> 8) - ((c * (s >>> 8)) >>> 15) * (s' >>> 8) + (s' >>> 8) * (s' >>> 8) <
        (2 ^ 31 : Int) := by
  have hc₀ := cos2pik_bounds c hc
  have hc₂ := sq_le_of_mem_cos2pik hc
  have hv := shr8_bounds (lt_of_energy_le hc hK₀ hK (energy_comm c s s' ▸ h)).1
    (lt_of_energy_le hc hK₀ hK (energy_comm c s s' ▸ h)).2
  simp only [show (8 : Int) = ((8 : Nat) : Int) from rfl, show (15 : Int) = ((15 : Nat) : Int) from rfl,
    shr_eq_div] at hv ⊢
  norm_num at hv ⊢
  -- the floor of `>> 8`: `(s, s') = 256 (u, v) + (e, e')`
  have hround : energy c (-(s % 256)) (-(s' % 256)) ≤ 32768 * 361 ^ 2 := by
    have he₀ := Int.emod_nonneg s (by decide : (256 : Int) ≠ 0)
    have he₀' := Int.emod_nonneg s' (by decide : (256 : Int) ≠ 0)
    have he₁ : (s % 256) ^ 2 ≤ 255 ^ 2 :=
      pow_le_pow_left₀ he₀ (by have := Int.emod_lt_of_pos s (by decide : (0 : Int) < 256); omega) 2
    have he₁' : (s' % 256) ^ 2 ≤ 255 ^ 2 :=
      pow_le_pow_left₀ he₀' (by have := Int.emod_lt_of_pos s' (by decide : (0 : Int) < 256); omega) 2
    have hce := mul_nonneg (mul_nonneg hc₀.1 he₀) he₀'
    have : energy c (-(s % 256)) (-(s' % 256)) =
        32768 * (s % 256) ^ 2 - c * (s % 256) * (s' % 256) + 32768 * (s' % 256) ^ 2 := by
      unfold energy; ring
    linarith
  have key := energy_add_le hc₂ (by norm_num) hK₀ (by norm_num) h hround
  rw [show s + -(s % 256) = 256 * (s / 256) by omega, show s' + -(s' % 256) = 256 * (s' / 256) by omega,
    energy_smul] at key
  -- the floor of `>> 15`
  have hρ := Int.ediv_add_emod (c * (s / 256)) 32768
  have hρ₁ := Int.emod_nonneg (c * (s / 256)) (by decide : (32768 : Int) ≠ 0)
  have hρ₂ := Int.emod_lt_of_pos (c * (s / 256)) (by decide : (0 : Int) < 32768)
  have hid : 32768 * ((s / 256) * (s / 256) - c * (s / 256) / 32768 * (s' / 256) + (s' / 256) * (s' / 256)) =
      energy c (s / 256) (s' / 256) + c * (s / 256) % 32768 * (s' / 256) := by
    unfold energy; linear_combination (-(s' / 256)) * hρ
  have hE := energy_nonneg hc₂ (s / 256) (s' / 256)
  have hK' : (K + 361) ^ 2 ≤ (32769 * 102 + 361) ^ 2 := pow_le_pow_left₀ (by linarith) (by linarith) 2
  have hρv : |c * (s / 256) % 32768 * (s' / 256)| ≤ 32768 * 32767 := by
    rw [abs_mul, abs_of_nonneg hρ₁]
    exact mul_le_mul hρ₂.le (abs_le.2 hv) (abs_nonneg _) (by norm_num)
  have := abs_le.1 hρv
  constructor <;> linarith

/-- A state of a frame of at most 102 samples lies in `(-8388352, 8388352)`, and so does the one
before it. -/
theorem goertzelLoop_lt {c : Int} (hc : c ∈ cos2pik) {buf : Nat → Int} {n : Nat} (hn : n ≤ 102)
    (h : ∀ j < n, -32768 ≤ buf j ∧ buf j ≤ 32767) :
    (-8388352 < (goertzelLoop c buf n).2.1 ∧ (goertzelLoop c buf n).2.1 < 8388352) ∧
      (-8388352 < (goertzelLoop c buf n).2.2 ∧ (goertzelLoop c buf n).2.2 < 8388352) := by
  have hE := goertzelLoop_energy (sq_le_of_mem_cos2pik hc) buf n h
  have hK : (32769 * n : Int) ≤ 32769 * 102 := by omega
  exact ⟨lt_of_energy_le hc (by positivity) hK hE,
    lt_of_energy_le hc (by positivity) hK (energy_comm c _ _ ▸ hE)⟩

/-! ### A `signed long` of `w` bits -/

/-- The square of a state `>> 8` fits in 32 bits. -/
theorem mul_self_fits {u : Int} (h : -32767 ≤ u ∧ u ≤ 32767) : -2 ^ 31 ≤ u * u ∧ u * u < 2 ^ 31 := by
  have hle : u * u ≤ 32767 * 32767 := by
    rw [← abs_mul_abs_self]
    exact mul_le_mul (abs_le.2 h) (abs_le.2 h) (abs_nonneg u) (by norm_num)
  have := mul_self_nonneg u
  constructor <;> linarith

theorem toLong_eq_self {w : Nat} {x : Int} (hw : 32 ≤ w) (h₁ : -2 ^ 31 ≤ x) (h₂ : x < 2 ^ 31) :
    toLong w x = x := by
  have hm : 2 ^ 32 ≤ 2 ^ w := Nat.pow_le_pow_right (by decide) hw
  unfold toLong
  generalize 2 ^ w = m at hm ⊢
  rw [Int.bmod_def]
  norm_num at h₁ h₂ hm
  rcases le_or_lt 0 x with hx | hx
  · rw [Int.emod_eq_of_lt hx (by omega), if_pos (by omega)]
  · rw [← Int.add_emod_self, Int.emod_eq_of_lt (by omega) (by omega), if_neg (by omega)]
    omega

/-- A `signed long` of `w ≥ 32` bits stores every state that fits in 32 bits as it is. -/
theorem goertzelLoopLong_eq {w : Nat} (hw : 32 ≤ w) (c : Int) (buf : Nat → Int) :
    ∀ n, (∀ j ≤ n, -2 ^ 31 ≤ (goertzelLoop c buf j).2.1 ∧ (goertzelLoop c buf j).2.1 < 2 ^ 31) →
      goertzelLoopLong w c buf n = goertzelLoop c buf n
  | 0, _ => rfl
  | n + 1, h => by
    have ih := goertzelLoopLong_eq hw c buf n fun j hj => h j (by omega)
    have e := toLong_eq_self hw (h (n + 1) le_rfl).1 (h (n + 1) le_rfl).2
    simp only [goertzelLoopLong, ih]
    exact Prod.ext e (Prod.ext e rfl)

/-- For `DSP_DTMF_NPOINTS = 102`, every `cos2pik` and every frame of `signed short`s: the states
stay within what the warning of lines 140-141 allows, so it never fires; they and the power fit in
32 bits; and a kernel with a `signed long` of any `w ≥ 32` bits computes the same states and
coefficients as the unbounded model, so one with 32 bits computes what one with 64 bits does. -/
theorem goertzel_fits_long (buf : Nat → Int) (hbuf : ∀ j < 102, -32768 ≤ buf j ∧ buf j ≤ 32767)
    (c : Int) (hc : c ∈ cos2pik) :
    (∀ n ≤ 102, -8388352 ≤ (goertzelLoop c buf n).1 ∧ (goertzelLoop c buf n).1 ≤ 8388607) ∧
    goertzelOverflow 102 buf c = false ∧
    (∀ n ≤ 102, -2 ^ 31 ≤ (goertzelLoop c buf n).1 ∧ (goertzelLoop c buf n).1 < 2 ^ 31) ∧
    (-2 ^ 31 ≤ goertzel 102 buf c ∧ goertzel 102 buf c < 2 ^ 31) ∧
    ∀ w, 32 ≤ w → goertzelLoopLong w c buf 102 = goertzelLoop c buf 102 ∧
      goertzelLong w 102 buf c = goertzel 102 buf c := by
  have hst : ∀ n ≤ 102, (-8388352 < (goertzelLoop c buf n).2.1 ∧ (goertzelLoop c buf n).2.1 < 8388352) ∧
      (-8388352 < (goertzelLoop c buf n).2.2 ∧ (goertzelLoop c buf n).2.2 < 8388352) :=
    fun n hn => goertzelLoop_lt hc hn fun j hj => hbuf j (by omega)
  have hfit : ∀ n ≤ 102, -2 ^ 31 ≤ (goertzelLoop c buf n).2.1 ∧ (goertzelLoop c buf n).2.1 < 2 ^ 31 :=
    fun n hn => by have := hst n hn; norm_num; omega
  have hE := goertzelLoop_energy (sq_le_of_mem_cos2pik hc) buf 102 hbuf
  rw [← goertzelLoop_fst] at hE
  have hp := power_lt_of_energy_le hc (by norm_num) (by norm_num) hE
  have hsk := shr8_bounds (s := (goertzelLoop c buf 102).1)
    (by rw [goertzelLoop_fst]; exact (hst 102 le_rfl).1.1) (by rw [goertzelLoop_fst]; exact (hst 102 le_rfl).1.2)
  have hsk2 := shr8_bounds (hst 102 le_rfl).2.1 (hst 102 le_rfl).2.2
  have hloop : ∀ w, 32 ≤ w → goertzelLoopLong w c buf 102 = goertzelLoop c buf 102 :=
    fun w hw => goertzelLoopLong_eq hw c buf 102 hfit
  refine ⟨fun n hn => ?_, ?_, fun n hn => goertzelLoop_fst c buf n ▸ hfit n hn, hp,
    fun w hw => ⟨hloop w hw, ?_⟩⟩
  · rw [goertzelLoop_fst]; have := hst n hn; omega
  · simp only [goertzelOverflow, Bool.or_eq_false_iff, decide_eq_false_iff_not]
    omega
  · simp only [goertzelLong, goertzel, hloop w hw]
    generalize (goertzelLoop c buf 102).1 >>> 8 = u at hsk hp ⊢
    generalize (goertzelLoop c buf 102).2.2 >>> 8 = v at hsk2 hp ⊢
    have hu := mul_self_fits hsk
    have hv := mul_self_fits hsk2
    rw [toLong_eq_self hw hu.1 hu.2, toLong_eq_self hw hv.1 hv.2, toLong_eq_self hw hp.1 hp.2]

/-- The frame of silence in the bin of 697 Hz. -/
theorem goertzel_fits_long_silence :
    (∀ j < 102, -32768 ≤ (fun _ => (0 : Int)) j ∧ (fun _ => (0 : Int)) j ≤ 32767) ∧
      (55960 : Int) ∈ cos2pik ∧
      ((∀ n ≤ 102, -8388352 ≤ (goertzelLoop 55960 (fun _ => 0) n).1 ∧
          (goertzelLoop 55960 (fun _ => 0) n).1 ≤ 8388607) ∧
        goertzelOverflow 102 (fun _ => 0) 55960 = false ∧
        (∀ n ≤ 102, -2 ^ 31 ≤ (goertzelLoop 55960 (fun _ => 0) n).1 ∧
          (goertzelLoop 55960 (fun _ => 0) n).1 < 2 ^ 31) ∧
        (-2 ^ 31 ≤ goertzel 102 (fun _ => 0) 55960 ∧ goertzel 102 (fun _ => 0) 55960 < 2 ^ 31) ∧
        ∀ w, 32 ≤ w → goertzelLoopLong w 55960 (fun _ => 0) 102 = goertzelLoop 55960 (fun _ => 0) 102 ∧
          goertzelLong w 102 (fun _ => 0) 55960 = goertzel 102 (fun _ => 0) 55960) :=
  ⟨by decide, by decide, goertzel_fits_long (fun _ => 0) (by decide) 55960 (by decide)⟩

end MisdnDsp
