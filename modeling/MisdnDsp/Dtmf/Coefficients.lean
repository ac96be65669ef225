import MisdnDsp.Dtmf.Stream

/-!
# The coefficient format

With a format other than 0 (A-law) and 1 (u-law) the card's DTMF unit delivers the eight squared
magnitudes itself, as raw `signed long`s (lines 106-117).  The `again` loop takes one set of
`sizeof(result)` bytes at a time and returns when fewer bytes than a set are left, with the error
"coefficients have invalid size": a partial set is dropped, never kept for the next call, and no
set is ever split across two calls.

* `dtmfAgain_coeff`: the loop is `storedigit` over the decisions of the complete sets;
* `coeffFrames_take_append`: the complete sets of a truncated stream followed by more bytes are those
  of the stream followed by those of the bytes;
* `dspDtmfGoertzelDecode_coeff_chunks`: decoding `s₁` and then `s₂` leaves the decoder as decoding,
  in one call, `s₁` without its partial set followed by `s₂`; while the one string has room, the two
  strings make it up.
-/

namespace MisdnDsp

variable (cfg : DtmfConfig)

/-- The decisions of the first `n` sets of `signed long result[NCOEFF]` in `data` (lines 116-118
and 152-213). -/
def coeffFrames : Nat → List UInt8 → List UInt8
  | 0, _ => []
  | n + 1, data => dtmfWhat (dtmfCoefficients cfg data) ::
      coeffFrames n (data.drop (ncoeff * cfg.longBytes))

/-- The `memcpy` of line 116 reads the first `sizeof(result)` bytes only. -/
theorem dtmfCoefficients_take_append (s t : List UInt8) {N : Nat} (h₁ : ncoeff * cfg.longBytes ≤ N)
    (h₂ : N ≤ s.length) : dtmfCoefficients cfg (s.take N ++ t) = dtmfCoefficients cfg s := by
  refine List.map_congr_left fun i hi => ?_
  have hi : (i + 1) * cfg.longBytes ≤ ncoeff * cfg.longBytes :=
    Nat.mul_le_mul_right _ (List.mem_range.1 hi)
  rw [Nat.succ_mul] at hi
  rw [List.drop_append_of_le_length (by simp; omega), List.take_append_of_le_length (by simp; omega),
    List.drop_take, List.take_take, min_eq_left (by omega)]

/-- For a format other than 0 and 1 the `again` loop is `storedigit` over the decisions of the
complete sets in `data`. -/
theorem dtmfAgain_coeff {fmt : Nat} (hfmt : ¬(fmt = 0 ∨ fmt = 1)) (st : Decoder) (data : List UInt8) :
    dtmfAgain cfg fmt st data =
      storeDigits cfg.digitsSize st
        (coeffFrames cfg (data.length / (ncoeff * cfg.longBytes)) data) := by
  have hB : 0 < ncoeff * cfg.longBytes := Nat.mul_pos (by decide) cfg.longBytes_pos
  rw [dtmfAgain, if_neg hfmt]
  split
  · subst data; simp [coeffFrames]
  split
  · rename_i hlt
    rw [Nat.div_eq_of_lt hlt, coeffFrames, storeDigits_nil]
  · -- one more set: `(len - sizeof(result)) / sizeof(result)` sets follow it
    rename_i hne hge
    have e := Nat.add_div_right (data.length - ncoeff * cfg.longBytes) hB
    rw [Nat.sub_add_cancel (by omega)] at e
    rw [dtmfAgain_coeff hfmt, List.length_drop, e, coeffFrames, storeDigits_cons]
termination_by data.length
decreasing_by
  have := cfg.longBytes_pos
  have : data.length ≠ 0 := by simpa using ‹¬data = []›
  simp only [List.length_drop, ncoeff]
  omega

/-- The complete sets of `s` truncated to `m` sets and followed by `t`: those of `s`, then those of
`t`. -/
theorem coeffFrames_take_append (m n : Nat) (s t : List UInt8) (h : m * (ncoeff * cfg.longBytes) ≤ s.length) :
    coeffFrames cfg (m + n) (s.take (m * (ncoeff * cfg.longBytes)) ++ t) =
      coeffFrames cfg m s ++ coeffFrames cfg n t := by
  induction m generalizing s with
  | zero => simp [coeffFrames]
  | succ m ih =>
    rw [Nat.succ_mul] at h ⊢
    rw [Nat.succ_add, coeffFrames, coeffFrames, List.cons_append,
      dtmfCoefficients_take_append cfg s t (by omega) h, List.drop_append_of_le_length (by simp; omega),
      List.drop_take, Nat.add_sub_cancel, ih (s.drop _) (by simp; omega)]

/-- Decoding `s₁` and then `s₂` in a format other than 0 and 1 leaves the decoder as decoding, in one
call, `s₁` without its partial set followed by `s₂`: the same fill level, buffer and counters; while
the one string is shorter than `sizeof(digits) - 1`, the two strings make it up. -/
theorem dspDtmfGoertzelDecode_coeff_chunks {fmt : Nat} (hfmt : ¬(fmt = 0 ∨ fmt = 1)) (st : Decoder)
    (s₁ s₂ : List UInt8) :
    let B := ncoeff * cfg.longBytes
    let r₁ := dspDtmfGoertzelDecode cfg fmt st s₁
    let r₂ := dspDtmfGoertzelDecode cfg fmt r₁ s₂
    let r := dspDtmfGoertzelDecode cfg fmt st (s₁.take (s₁.length / B * B) ++ s₂)
    (r₂.size = r.size ∧ r₂.buffer = r.buffer ∧ r₂.lastwhat = r.lastwhat ∧
        r₂.lastdigit = r.lastdigit ∧ r₂.count = r.count) ∧
      (r.digits.length < cfg.digitsSize - 1 → r₁.digits ++ r₂.digits = r.digits) := by
  intro B r₁ r₂ r
  have hB : 0 < B := Nat.mul_pos (by decide) cfg.longBytes_pos
  have hm : s₁.length / B * B ≤ s₁.length := Nat.div_mul_le_self _ _
  -- the three calls through the decisions of the complete sets
  generalize hX : storeDigits cfg.digitsSize { st with digits := [] }
    (coeffFrames cfg (s₁.length / B) s₁) = X
  have e₁ : r₁ = X := by simp only [r₁, dspDtmfGoertzelDecode, dtmfAgain_coeff cfg hfmt, hX]
  have e₂ : r₂ = storeDigits cfg.digitsSize { X with digits := [] }
      (coeffFrames cfg (s₂.length / B) s₂) := by
    simp only [r₂, dspDtmfGoertzelDecode, dtmfAgain_coeff cfg hfmt, e₁]
  have hlen : (s₁.take (s₁.length / B * B) ++ s₂).length / B = s₁.length / B + s₂.length / B := by
    rw [List.length_append, List.length_take, min_eq_left hm, Nat.add_comm, Nat.mul_comm,
      Nat.add_mul_div_left _ _ hB, Nat.add_comm]
  have e : r = storeDigits cfg.digitsSize X (coeffFrames cfg (s₂.length / B) s₂) := by
    simp only [r, dspDtmfGoertzelDecode, dtmfAgain_coeff cfg hfmt]
    rw [hlen, coeffFrames_take_append cfg _ _ _ _ hm, storeDigits_append, hX]
  -- the counters do not depend on the digits the second call starts with
  have hw := congrArg (fun x : Decoder => (x.size, x.buffer, x.lastwhat, x.lastdigit, x.count))
    (storeDigits_withDigits cfg.digitsSize X [] (coeffFrames cfg (s₂.length / B) s₂))
  simp only [Prod.mk.injEq] at hw
  refine ⟨by rw [e₂, e]; exact hw, fun hl => ?_⟩
  have key := storeDigits_digits_append cfg.digitsSize X X.digits [] (coeffFrames cfg (s₂.length / B) s₂)
  rw [List.append_nil, show ({ X with digits := X.digits } : Decoder) = X from rfl] at key
  rw [e] at hl
  rw [e₁, e₂, e]
  exact (key (by omega)).symm

/-- A call splits 70 zero bytes, one set of eight-byte `signed long`s and 6 bytes, from 64 more. -/
theorem dspDtmfGoertzelDecode_coeff_chunks_init :
    ¬(2 = 0 ∨ 2 = 1) ∧
      let st := dspDtmfGoertzelInit ⟨0, fun _ => 0, 0, 0, 0, []⟩
      let B := ncoeff * dtmfConfig₀.longBytes
      let s₁ : List UInt8 := List.replicate 70 0
      let s₂ : List UInt8 := List.replicate 64 0
      let r₁ := dspDtmfGoertzelDecode dtmfConfig₀ 2 st s₁
      let r₂ := dspDtmfGoertzelDecode dtmfConfig₀ 2 r₁ s₂
      let r := dspDtmfGoertzelDecode dtmfConfig₀ 2 st (s₁.take (s₁.length / B * B) ++ s₂)
      (r₂.size = r.size ∧ r₂.buffer = r.buffer ∧ r₂.lastwhat = r.lastwhat ∧
          r₂.lastdigit = r.lastdigit ∧ r₂.count = r.count) ∧
        (r.digits.length < dtmfConfig₀.digitsSize - 1 → r₁.digits ++ r₂.digits = r.digits) :=
  ⟨by decide, dspDtmfGoertzelDecode_coeff_chunks dtmfConfig₀ (by decide) _ _ _⟩

end MisdnDsp
