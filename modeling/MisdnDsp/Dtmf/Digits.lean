import MisdnDsp.Dtmf.Hysteresis

/-!
# The digit string

`dsp_dtmf_goertzel_decode` returns `dsp->dtmf.digits`, a string in an array of `sizeof(digits)`
bytes.  Whatever state the decoder is in and whatever bytes it is given, in every format, that
string keeps room for its NUL and holds keys of `dtmf_matrix` only: silence (decision 0) is never
stored, and no byte but the sixteen keys can be, so no NUL ends the string early.

* `dtmfWhat_mem`: the decision of lines 153-213 is 0 or a key;
* `Decoder.DigitsOk.store`: `storedigit` appends a digit only when it is not 0 and there is
  room (line 230);
* `dtmfAgain_digitsOk`: the `again` loop keeps that, along its own recursion;
* `dspDtmfGoertzelDecode_digitsOk`: so does every call.
-/

namespace MisdnDsp

/-- The sixteen keys of `dtmf_matrix`, as `storedigit` stores them. -/
def dtmfKeys : List UInt8 := dtmfMatrix.flatten.map fun c => c.toNat.toUInt8

/-- No key is the NUL that ends the string. -/
theorem zero_not_mem_dtmfKeys : (0 : UInt8) ∉ dtmfKeys := by decide

/-- Lines 210-213: `what` is `dtmf_matrix[lowgroup][highgroup]` when both groups are found, and 0
otherwise. -/
theorem dtmfWhat_mem (result : List Int) : dtmfWhat result = 0 ∨ dtmfWhat result ∈ dtmfKeys := by
  unfold dtmfWhat
  dsimp only
  split_ifs
  · exact .inl rfl
  · split
    · rename_i c hc
      obtain ⟨row, hrow, hcr⟩ := Option.bind_eq_some.1 hc
      exact .inr (List.mem_map_of_mem _ (List.mem_flatten.2 ⟨row, List.get?_mem hrow, List.get?_mem hcr⟩))
    · exact .inl rfl
  · exact .inl rfl

/-- `digits[]` as `dsp_dtmf_goertzel_decode` keeps it: a string of fewer than `D = sizeof(digits)`
bytes, so that its NUL fits, of keys only. -/
structure Decoder.DigitsOk (D : Nat) (st : Decoder) : Prop where
  length : st.digits.length < D
  keys : ∀ x ∈ st.digits, x ∈ dtmfKeys

/-- Lines 223-233: `storedigit` appends `what` only when it is a new digit, not 0, and
`strlen(digits) + 1 < sizeof(digits)`. -/
theorem Decoder.DigitsOk.store {D : Nat} {st : Decoder} (h : st.DigitsOk D) {what : UInt8}
    (hw : what = 0 ∨ what ∈ dtmfKeys) : (storeDigit D st what).DigitsOk D := by
  have e : (storeDigit D st what).digits =
      if storeDigitNew st what ∧ st.digits.length + 1 < D then st.digits ++ [what] else st.digits := by
    rw [storeDigit_eq]
  constructor <;> rw [e] <;> split_ifs with ha
  · simpa using ha.2
  · exact h.length
  · intro x hx
    rcases List.mem_append.1 hx with hx | hx
    · exact h.keys x hx
    · have hne : what ≠ 0 := by
        have := ha.1
        simp only [storeDigitNew, Bool.and_eq_true, bne_iff_ne] at this
        exact this.2
      exact List.mem_singleton.1 hx ▸ hw.resolve_left hne
  · exact h.keys

/-- The `again` loop keeps the string well formed, for every format, along its own recursion: a
frame of samples or a set of coefficients at a time. -/
theorem dtmfAgain_digitsOk (cfg : DtmfConfig) (fmt : Nat) (st : Decoder) (data : List UInt8)
    (h : st.DigitsOk cfg.digitsSize) : (dtmfAgain cfg fmt st data).DigitsOk cfg.digitsSize := by
  induction st, data using dtmfAgain.induct cfg fmt with
  | case1 st data hfmt r hr =>
    rw [dtmfAgain, if_pos hfmt]
    dsimp only
    rw [if_pos hr]
    exact ⟨h.length, h.keys⟩
  | case2 st data hfmt r hr ih =>
    rw [dtmfAgain, if_pos hfmt]
    dsimp only
    rw [if_neg hr]
    refine ih (Decoder.DigitsOk.store ?_ (dtmfWhat_mem _))
    exact ⟨h.length, h.keys⟩
  | case3 st hfmt => rw [dtmfAgain, if_neg hfmt, if_pos rfl]; exact h
  | case4 st data hfmt hne hlt => rw [dtmfAgain, if_neg hfmt, if_neg hne, if_pos hlt]; exact h
  | case5 st data hfmt hne hlt ih =>
    rw [dtmfAgain, if_neg hfmt, if_neg hne, if_neg hlt]
    exact ih (h.store (dtmfWhat_mem _))

/-- Whatever state the decoder is in, whatever bytes and format it is given, the string that
`dsp_dtmf_goertzel_decode` returns fits in `digits[]` with its NUL, holds keys of `dtmf_matrix`
only, and so holds no NUL before its end. -/
theorem dspDtmfGoertzelDecode_digitsOk (cfg : DtmfConfig) (fmt : Nat) (st : Decoder)
    (data : List UInt8) :
    (dspDtmfGoertzelDecode cfg fmt st data).digits.length < cfg.digitsSize ∧
      (∀ x ∈ (dspDtmfGoertzelDecode cfg fmt st data).digits, x ∈ dtmfKeys) ∧
      (0 : UInt8) ∉ (dspDtmfGoertzelDecode cfg fmt st data).digits :=
  have h := dtmfAgain_digitsOk cfg fmt { st with digits := [] } data
    ⟨cfg.digitsSize_pos, fun _ hx => absurd hx (List.not_mem_nil _)⟩
  ⟨h.length, h.keys, fun h0 => zero_not_mem_dtmfKeys (h.keys 0 h0)⟩

end MisdnDsp
