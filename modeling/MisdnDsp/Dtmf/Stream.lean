import MisdnDsp.Dtmf.Hysteresis

/-!
# The decoder as a stream of frames; decoding in chunks

For the sample formats, A-law and u-law, the `again` loop of `dsp_dtmf_goertzel_decode` is a
machine on the byte stream: each byte fills the next place of the buffer, and a full buffer gives
one decision, which goes to `storedigit`.  `dtmfFrames` is that machine for the buffer alone.

* `dtmfAgain_eq_frames`: the loop is `storedigit` over the decisions of `dtmfFrames`, which leaves
  the fill level and the buffer where `dtmfFrames` leaves them.
* `dtmfFrames_append`: the stream of `s₁ ++ s₂` is that of `s₁` followed by that of `s₂`.
* `DtmfReachable.size_lt`: in every state that calls reach from `dsp_dtmf_goertzel_init`, the fill
  level is below `DSP_DTMF_NPOINTS`.
* `dspDtmfGoertzelDecode_chunks`: decoding `s₁` and then `s₂` leaves the decoder as decoding
  `s₁ ++ s₂` does, and the two strings make up the one string while the array has room.
-/

namespace MisdnDsp

/-- The buffer of formats 0 and 1 as a machine on the byte stream: each byte goes in at the fill
level, and a full buffer yields its decision and starts over.  The fill level, the buffer, and the
decisions in order. -/
def dtmfFrames (cfg : DtmfConfig) (fmt : Nat) : Nat → (Nat → Int) → List UInt8 →
    Nat × (Nat → Int) × List UInt8
  | size, buf, [] => (size, buf, [])
  | size, buf, b :: bs =>
    let buf := Function.update buf size (dtmfSample cfg.tables fmt b)
    if size + 1 < cfg.npoints then dtmfFrames cfg fmt (size + 1) buf bs
    else
      let r := dtmfFrames cfg fmt 0 buf bs
      (r.1, r.2.1, frameWhat cfg.npoints buf :: r.2.2)

variable (cfg : DtmfConfig) (fmt : Nat)

theorem dtmfFrames_append (size : Nat) (buf : Nat → Int) (s₁ s₂ : List UInt8) :
    dtmfFrames cfg fmt size buf (s₁ ++ s₂) =
      let r₁ := dtmfFrames cfg fmt size buf s₁
      let r₂ := dtmfFrames cfg fmt r₁.1 r₁.2.1 s₂
      (r₂.1, r₂.2.1, r₁.2.2 ++ r₂.2.2) := by
  induction s₁ generalizing size buf with
  | nil => rfl
  | cons b bs ih =>
    simp only [List.cons_append, dtmfFrames]
    split
    · exact ih _ _
    · simp [ih]

theorem dtmfFrames_size_lt (size : Nat) (buf : Nat → Int) (data : List UInt8)
    (h : size < cfg.npoints) : (dtmfFrames cfg fmt size buf data).1 < cfg.npoints := by
  induction data generalizing size buf with
  | nil => exact h
  | cons b bs ih =>
    simp only [dtmfFrames]
    split
    · exact ih _ _ ‹_›
    · exact ih _ _ cfg.npoints_pos

theorem dtmfFill_full (size : Nat) (buf : Nat → Int) (data : List UInt8) (h : cfg.npoints ≤ size) :
    dtmfFill cfg fmt size buf data = (size, buf, data) := by
  cases data <;> simp [dtmfFill, Nat.not_lt.2 h]

/-- The fill loop, and then the frame it completes if it completes one: one step of the stream. -/
theorem dtmfFrames_fill (size : Nat) (buf : Nat → Int) (data : List UInt8) (h : size < cfg.npoints) :
    dtmfFrames cfg fmt size buf data =
      let f := dtmfFill cfg fmt size buf data
      if f.1 < cfg.npoints then (f.1, f.2.1, [])
      else
        let r := dtmfFrames cfg fmt 0 f.2.1 f.2.2
        (r.1, r.2.1, frameWhat cfg.npoints f.2.1 :: r.2.2) := by
  induction data generalizing size buf with
  | nil => simp [dtmfFrames, dtmfFill, h]
  | cons b bs ih =>
    simp only [dtmfFrames, dtmfFill, h, if_true]
    split
    · exact ih _ _ ‹_›
    · rw [dtmfFill_full cfg fmt _ _ _ (by omega)]
      simp only [if_neg ‹¬size + 1 < cfg.npoints›]

/-- For formats 0 and 1 the `again` loop is `storedigit` over the decisions of the frames that the
bytes complete. -/
theorem dtmfAgain_eq_frames (hfmt : fmt = 0 ∨ fmt = 1) (st : Decoder) (h : st.size < cfg.npoints)
    (data : List UInt8) :
    dtmfAgain cfg fmt st data =
      let r := dtmfFrames cfg fmt st.size st.buffer data
      { storeDigits cfg.digitsSize st r.2.2 with size := r.1, buffer := r.2.1 } := by
  rw [dtmfAgain, if_pos hfmt, dtmfFrames_fill cfg fmt _ _ _ h]
  dsimp only
  split
  · rfl
  · rename_i hf
    have hlen := dtmfFill_length cfg fmt st.size st.buffer data
    rw [dtmfAgain_eq_frames hfmt _ (by simp [cfg.npoints_pos])]
    simp only [storeDigit_size, storeDigit_buffer, storeDigits_cons]
    rw [show storeDigit cfg.digitsSize { st with size := 0, buffer := (dtmfFill cfg fmt st.size st.buffer data).2.1 }
        (frameWhat cfg.npoints (dtmfFill cfg fmt st.size st.buffer data).2.1) =
        { storeDigit cfg.digitsSize st (frameWhat cfg.npoints (dtmfFill cfg fmt st.size st.buffer data).2.1) with
          size := 0, buffer := (dtmfFill cfg fmt st.size st.buffer data).2.1 } from
      storeDigits_setFrame cfg.digitsSize st 0 _ [_], storeDigits_setFrame]
termination_by data.length
decreasing_by
  have := dtmfFill_length cfg fmt st.size st.buffer data
  omega

/-- `dsp_dtmf_goertzel_decode` for formats 0 and 1. -/
theorem dspDtmfGoertzelDecode_eq_frames (hfmt : fmt = 0 ∨ fmt = 1) (st : Decoder)
    (h : st.size < cfg.npoints) (data : List UInt8) :
    dspDtmfGoertzelDecode cfg fmt st data =
      let r := dtmfFrames cfg fmt st.size st.buffer data
      { storeDigits cfg.digitsSize { st with digits := [] } r.2.2 with size := r.1, buffer := r.2.1 } :=
  dtmfAgain_eq_frames cfg fmt hfmt { st with digits := [] } h data

/-- Every call of the loop ends below a full buffer: the sample formats return only then, and the
coefficient format leaves the fill level alone. -/
theorem dtmfAgain_size_lt (st : Decoder) (data : List UInt8) (h : st.size < cfg.npoints) :
    (dtmfAgain cfg fmt st data).size < cfg.npoints := by
  by_cases hfmt : fmt = 0 ∨ fmt = 1
  · rw [dtmfAgain_eq_frames cfg fmt hfmt st h]
    exact dtmfFrames_size_lt cfg fmt _ _ _ h
  · rw [dtmfAgain, if_neg hfmt]
    split
    · exact h
    split
    · exact h
    · exact dtmfAgain_size_lt _ _ (by simpa using h)
termination_by data.length
decreasing_by
  have := cfg.longBytes_pos
  have : data.length ≠ 0 := by simpa using ‹¬data = []›
  simp only [List.length_drop, ncoeff]
  omega

/-- The decoder states that calls of `dsp_dtmf_goertzel_decode` reach from
`dsp_dtmf_goertzel_init`, in any formats. -/
inductive DtmfReachable : Decoder → Prop
  | init (st : Decoder) : DtmfReachable (dspDtmfGoertzelInit st)
  | decode {st : Decoder} (fmt : Nat) (data : List UInt8) :
      DtmfReachable st → DtmfReachable (dspDtmfGoertzelDecode cfg fmt st data)

theorem DtmfReachable.size_lt {st : Decoder} (h : DtmfReachable cfg st) : st.size < cfg.npoints := by
  induction h with
  | init => exact cfg.npoints_pos
  | decode fmt data _ ih => exact dtmfAgain_size_lt cfg fmt _ data ih

/-- Decoding `s₁` and then `s₂` in the formats 0 and 1, from any state that calls reach from
`dsp_dtmf_goertzel_init`, leaves the fill level below `DSP_DTMF_NPOINTS` and the decoder as decoding
`s₁ ++ s₂` in one call does; while the one string is shorter than `sizeof(digits) - 1`, the two
strings make it up. -/
theorem dspDtmfGoertzelDecode_chunks (st : Decoder) (hst : DtmfReachable cfg st)
    (hfmt : fmt = 0 ∨ fmt = 1) (s₁ s₂ : List UInt8) :
    let r₁ := dspDtmfGoertzelDecode cfg fmt st s₁
    let r₂ := dspDtmfGoertzelDecode cfg fmt r₁ s₂
    let r := dspDtmfGoertzelDecode cfg fmt st (s₁ ++ s₂)
    (r₁.size < cfg.npoints ∧ r₂.size < cfg.npoints ∧ r.size < cfg.npoints) ∧
      (r₂.size = r.size ∧ r₂.buffer = r.buffer ∧ r₂.lastwhat = r.lastwhat ∧
        r₂.lastdigit = r.lastdigit ∧ r₂.count = r.count) ∧
      (r.digits.length < cfg.digitsSize - 1 → r₁.digits ++ r₂.digits = r.digits) := by
  intro r₁ r₂ r
  have h₀ := hst.size_lt
  -- the decisions of the two chunks
  generalize hF₁ : dtmfFrames cfg fmt st.size st.buffer s₁ = F₁
  have hF₁lt : F₁.1 < cfg.npoints := hF₁ ▸ dtmfFrames_size_lt cfg fmt _ _ _ h₀
  generalize hF₂ : dtmfFrames cfg fmt F₁.1 F₁.2.1 s₂ = F₂
  have hF₂lt : F₂.1 < cfg.npoints := hF₂ ▸ dtmfFrames_size_lt cfg fmt _ _ _ hF₁lt
  -- the three calls through the stream
  generalize hX : storeDigits cfg.digitsSize { st with digits := [] } F₁.2.2 = X
  have e₁ : r₁ = { X with size := F₁.1, buffer := F₁.2.1 } := by
    simp only [r₁, dspDtmfGoertzelDecode_eq_frames cfg fmt hfmt st h₀, hF₁, hX]
  have e₂ : r₂ = { storeDigits cfg.digitsSize { X with digits := [] } F₂.2.2 with
      size := F₂.1, buffer := F₂.2.1 } := by
    simp only [r₂, dspDtmfGoertzelDecode_eq_frames cfg fmt hfmt r₁ (by rw [e₁]; exact hF₁lt), e₁, hF₂]
    rw [storeDigits_setFrame cfg.digitsSize { X with digits := [] } F₁.1 F₁.2.1]
  have e : r = { storeDigits cfg.digitsSize X F₂.2.2 with size := F₂.1, buffer := F₂.2.1 } := by
    simp only [r, dspDtmfGoertzelDecode_eq_frames cfg fmt hfmt st h₀, dtmfFrames_append, hF₁, hF₂,
      storeDigits_append, hX]
  -- the counters do not depend on the digits the second run starts with
  have hw := congrArg (fun x : Decoder => (x.lastwhat, x.lastdigit, x.count))
    (storeDigits_withDigits cfg.digitsSize X [] F₂.2.2)
  simp only [Prod.mk.injEq] at hw
  refine ⟨⟨by rw [e₁]; exact hF₁lt, by rw [e₂]; exact hF₂lt, by rw [e]; exact hF₂lt⟩,
    by rw [e₂, e]; exact ⟨rfl, rfl, hw.1, hw.2.1, hw.2.2⟩, fun hlen => ?_⟩
  have key := storeDigits_digits_append cfg.digitsSize X X.digits [] F₂.2.2
  rw [List.append_nil, show ({ X with digits := X.digits } : Decoder) = X from rfl] at key
  have hl : (storeDigits cfg.digitsSize X F₂.2.2).digits.length < cfg.digitsSize - 1 := by
    rw [e] at hlen; exact hlen
  rw [e₁, e₂, e]
  exact (key (by omega)).symm

/-- A configuration to instantiate the decoder: frames of two samples, four bytes of `digits`,
eight-byte `signed long`s read as 0, and tables that decode a byte to its value. -/
def dtmfConfig₀ : DtmfConfig :=
  ⟨2, by decide, 4, by decide, 8, by decide, fun _ => 0,
    ⟨fun b => b.toNat, fun b => b.toNat, fun _ => 0, fun _ => 0, 0xd5, 0xff⟩⟩

/-- A configuration in which a frame can hold a key: frames of 48 samples, four bytes of
`digits`, and A-law bytes that decode to `(b - 128) * 256`. -/
def dtmfConfigKeys : DtmfConfig :=
  ⟨48, by decide, 4, by decide, 8, by decide, fun _ => 0,
    ⟨fun b => ((b.toNat : Int) - 128) * 256, fun b => b.toNat, fun _ => 0, fun _ => 0, 0xd5, 0xff⟩⟩

/-- Three frames whose Goertzel magnitudes show 697 Hz and 1209 Hz only (the key `1`), then three
that show 697 Hz and 1336 Hz only (the key `2`). -/
def keyFrames : List UInt8 :=
  let one : List UInt8 := [25, 33, 32, 26, 47, 101, 150, 160, 147, 149, 182, 219, 221, 176, 104, 36,
    1, 16, 77, 153, 201, 197, 161, 138, 151, 180, 185, 148, 83, 24, 1, 28, 100, 186, 239, 233, 187,
    148, 140, 146, 131, 90, 49, 27, 16, 7, 29, 133]
  let two : List UInt8 := [45, 90, 79, 49, 64, 123, 167, 161, 133, 134, 171, 203, 191, 142, 89, 57,
    52, 70, 105, 140, 160, 160, 159, 168, 177, 164, 128, 93, 81, 85, 83, 75, 87, 133, 191, 220, 207,
    172, 139, 111, 89, 78, 85, 85, 51, 1, 16, 157]
  one ++ one ++ one ++ two ++ two ++ two

set_option maxRecDepth 20000 in
/-- The chunking law from `dsp_dtmf_goertzel_init` for the six frames of `keyFrames` split inside
the fifth: the first call stores `1`, the one call stores `12`, and so the second call, which
starts from the counters the first left, stores `2`. -/
theorem dspDtmfGoertzelDecode_chunks_init :
    DtmfReachable dtmfConfigKeys (dspDtmfGoertzelInit ⟨0, fun _ => 0, 0, 0, 0, []⟩) ∧ (0 = 0 ∨ 0 = 1) ∧
      (dspDtmfGoertzelDecode dtmfConfigKeys 0 (dspDtmfGoertzelInit ⟨0, fun _ => 0, 0, 0, 0, []⟩)
        (keyFrames.take 200)).digits = [49] ∧
      (dspDtmfGoertzelDecode dtmfConfigKeys 0 (dspDtmfGoertzelInit ⟨0, fun _ => 0, 0, 0, 0, []⟩)
        (keyFrames.take 200 ++ keyFrames.drop 200)).digits = [49, 50] ∧
      let st := dspDtmfGoertzelInit ⟨0, fun _ => 0, 0, 0, 0, []⟩
      let r₁ := dspDtmfGoertzelDecode dtmfConfigKeys 0 st (keyFrames.take 200)
      let r₂ := dspDtmfGoertzelDecode dtmfConfigKeys 0 r₁ (keyFrames.drop 200)
      let r := dspDtmfGoertzelDecode dtmfConfigKeys 0 st (keyFrames.take 200 ++ keyFrames.drop 200)
      (r₁.size < dtmfConfigKeys.npoints ∧ r₂.size < dtmfConfigKeys.npoints ∧
          r.size < dtmfConfigKeys.npoints) ∧
        (r₂.size = r.size ∧ r₂.buffer = r.buffer ∧ r₂.lastwhat = r.lastwhat ∧
          r₂.lastdigit = r.lastdigit ∧ r₂.count = r.count) ∧
        (r.digits.length < dtmfConfigKeys.digitsSize - 1 → r₁.digits ++ r₂.digits = r.digits) :=
  have e := dspDtmfGoertzelDecode_eq_frames dtmfConfigKeys 0 (Or.inl rfl)
    (dspDtmfGoertzelInit ⟨0, fun _ => 0, 0, 0, 0, []⟩) (by decide)
  ⟨.init _, Or.inl rfl, by rw [e]; decide, by rw [List.take_append_drop, e]; decide,
    dspDtmfGoertzelDecode_chunks dtmfConfigKeys 0 _ (.init _) (Or.inl rfl) _ _⟩

end MisdnDsp
