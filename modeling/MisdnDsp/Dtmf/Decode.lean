import MisdnDsp.Cmx.State

/-!
# The DTMF decoder: `dsp_dtmf_goertzel_decode`

`dsp_dtmf.c` collects the samples of a channel in `dsp->dtmf.buffer` until a frame of
`DSP_DTMF_NPOINTS` is full, runs the Goertzel filter on it for the eight DTMF frequencies, reads a
digit off the squared magnitudes, and passes that decision through `storedigit`, which takes a digit
only once it has been seen in three frames in a row.  With a format other than 0 (A-law) and 1
(u-law) the card's own DTMF unit delivers the eight magnitudes, as raw `signed long`s.

`DSP_DTMF_NPOINTS`, the size of `digits`, the width of `signed long` and the way the platform reads
one from its bytes come from `dsp.h` and the platform: `DtmfConfig` takes them as parameters, with
the positivity without which the `again` loop would not return.  That loop is `dtmfAgain`, by
well-founded recursion on the bytes left; the samples of a buffer are `signed short`, and the
filter's `signed long` arithmetic is done in `Int` with `>>>` for the arithmetic shifts.  The
character array `digits` is modelled by the string before its NUL.
-/

namespace MisdnDsp

/-- `NCOEFF`. -/
def ncoeff : Nat := 8

/-- `DTMF_TRESH`. -/
def dtmfTresh : Int := 200000

/-- `cos2pik`: `2 cos(2 pi k / N)`, shifted left by 15, for the eight frequencies. -/
def cos2pik : List Int := [55960, 53912, 51402, 48438, 38146, 32650, 26170, 18630]

/-- `dtmf_matrix`: rows by the low tone, columns by the high tone. -/
def dtmfMatrix : List (List Char) :=
  [['1', '2', '3', 'A'], ['4', '5', '6', 'B'], ['7', '8', '9', 'C'], ['*', '0', '#', 'D']]

/-- What `dsp.h` and the platform fix. -/
structure DtmfConfig where
  /-- `DSP_DTMF_NPOINTS` -/
  npoints : Nat
  npoints_pos : 0 < npoints
  /-- `sizeof(dsp->dtmf.digits)` -/
  digitsSize : Nat
  digitsSize_pos : 0 < digitsSize
  /-- `sizeof(signed long)` -/
  longBytes : Nat
  longBytes_pos : 0 < longBytes
  /-- the `signed long` that the platform reads from `sizeof(signed long)` bytes -/
  readLong : List UInt8 → Int
  /-- `dsp_audio_alaw_to_s32` and `dsp_audio_ulaw_to_s32` -/
  tables : AudioTables

/-- `dsp->dtmf`, the decoder of a channel. -/
structure Decoder where
  size : Nat
  /-- `buffer[DSP_DTMF_NPOINTS]` of `signed short` -/
  buffer : Nat → Int
  lastwhat : UInt8
  lastdigit : UInt8
  count : Nat
  /-- the string in `digits[]` -/
  digits : List UInt8

/-- `dsp_dtmf_goertzel_init`. -/
def dspDtmfGoertzelInit (st : Decoder) : Decoder :=
  { st with size := 0, lastwhat := 0, lastdigit := 0, count := 0 }

/-! ### Collecting samples -/

/-- Conversion to `signed short`, two's complement. -/
def toShort (x : Int) : Int := x.bmod 65536

/-- The sample of byte `b`: `dsp_audio_alaw_to_s32[b]` for format 0, `dsp_audio_ulaw_to_s32[b]`
for format 1. -/
def dtmfSample (tab : AudioTables) (fmt : Nat) (b : UInt8) : Int :=
  toShort (tab.decodeLaw (fmt == 1) b)

/-- `while(size<DSP_DTMF_NPOINTS && len) buf[size++] = ...` (lines 94-104): the fill level, the
buffer and the bytes left. -/
def dtmfFill (cfg : DtmfConfig) (fmt : Nat) : Nat → (Nat → Int) → List UInt8 →
    Nat × (Nat → Int) × List UInt8
  | size, buf, [] => (size, buf, [])
  | size, buf, b :: bs =>
    if size < cfg.npoints then
      dtmfFill cfg fmt (size + 1) (Function.update buf size (dtmfSample cfg.tables fmt b)) bs
    else (size, buf, b :: bs)

/-- Every byte the loop takes raises the fill level by one. -/
theorem dtmfFill_length (cfg : DtmfConfig) (fmt : Nat) (size : Nat) (buf : Nat → Int)
    (data : List UInt8) :
    size ≤ (dtmfFill cfg fmt size buf data).1 ∧
      (dtmfFill cfg fmt size buf data).2.2.length + (dtmfFill cfg fmt size buf data).1 =
        data.length + size := by
  induction data generalizing size buf with
  | nil => simp [dtmfFill]
  | cons b bs ih =>
    simp only [dtmfFill]
    split
    · have := ih (size + 1) (Function.update buf size (dtmfSample cfg.tables fmt b))
      simp only [List.length_cons]; omega
    · simp

/-! ### Deciding a frame -/

/-- The loop of lines 133-137 for the coefficient `c`: `(sk, sk1, sk2)` after the samples
`buf 0, ..., buf (n-1)`. -/
def goertzelLoop (c : Int) (buf : Nat → Int) : Nat → Int × Int × Int
  | 0 => (0, 0, 0)
  | n + 1 =>
    let r := goertzelLoop c buf n
    let sk := ((c * r.2.1) >>> 15) - r.2.2 + buf n
    (sk, sk, r.2.1)

/-- Lines 131-146: `|X(k)|^2` of the frame for the coefficient `c`. -/
def goertzel (npoints : Nat) (buf : Nat → Int) (c : Int) : Int :=
  let r := goertzelLoop c buf npoints
  let sk := r.1 >>> 8
  let sk2 := r.2.2 >>> 8
  sk * sk - ((c * sk) >>> 15) * sk2 + sk2 * sk2

/-- The arithmetic shift `>>` of a `signed long` is floor division by a power of two. -/
theorem shr_eq_div (m : Int) (n : Nat) : m >>> (n : Int) = m / 2 ^ n := by
  have e : m >>> (n : Int) = (m >>> n : Int) := by
    cases m with
    | ofNat m => exact Int.shiftRight_coe_nat m n
    | negSucc m => exact Int.shiftRight_negSucc m n
  rw [e, Int.shiftRight_eq_div_pow]; push_cast; rfl

/-- The loop of lines 183-208 from coefficient `i` on: `(lowgroup, highgroup)`, -1 for none. -/
def dtmfGroups (treshl tresh : Int) : Nat → List Int → Int × Int → Int × Int
  | _, [], g => g
  | i, r :: rs, (lo, hi) =>
    if r < treshl then dtmfGroups treshl tresh (i + 1) rs (lo, hi)
    else if r < tresh then (-1, -1)
    else if i < ncoeff / 2 then
      if lo ≥ 0 then (-1, hi) else dtmfGroups treshl tresh (i + 1) rs (i, hi)
    else if hi ≥ 0 then (lo, -1) else dtmfGroups treshl tresh (i + 1) rs (lo, (i - ncoeff / 2 : Nat))

/-- Lines 153-213: the digit that the squared magnitudes `result` show, or 0.  Negative magnitudes
count as 0, `tresh` is the largest magnitude above `DTMF_TRESH`, and one tone of each group must be
within 6 dB of it while every other stays 9 dB below. -/
def dtmfWhat (result : List Int) : UInt8 :=
  let result := result.map fun r => if r < 0 then 0 else r
  let tresh := result.foldl (fun t r => if r > dtmfTresh then (if r > t then r else t) else t) 0
  if tresh = 0 then 0
  else
    let g := dtmfGroups (tresh >>> 3) (tresh >>> 2) 0 result (-1, -1)
    if g.1 ≥ 0 ∧ g.2 ≥ 0 then
      match (dtmfMatrix.get? g.1.toNat).bind (·.get? g.2.toNat) with
      | some c => c.toNat.toUInt8
      | none => 0
    else 0

/-- The decision for the full frame `buf` (lines 130-213). -/
def frameWhat (npoints : Nat) (buf : Nat → Int) : UInt8 :=
  dtmfWhat (cos2pik.map (goertzel npoints buf))

/-- `memcpy(result, data, sizeof(result))` (line 116): the eight `signed long`s at the head of
`data`. -/
def dtmfCoefficients (cfg : DtmfConfig) (data : List UInt8) : List Int :=
  (List.range ncoeff).map fun i => cfg.readLong ((data.drop (i * cfg.longBytes)).take cfg.longBytes)

/-! ### `storedigit` and the `again` loop -/

/-- `storedigit` (lines 215-239) for the decision `what`, with `D = sizeof(dsp->dtmf.digits)`. -/
def storeDigit (D : Nat) (st : Decoder) (what : UInt8) : Decoder :=
  let count := if st.lastwhat ≠ what then 0 else st.count
  if count = 2 then
    if st.lastdigit ≠ what then
      { st with count := count, lastwhat := what, lastdigit := what
                digits := if what ≠ 0 ∧ st.digits.length + 1 < D then st.digits ++ [what] else st.digits }
    else { st with count := count, lastwhat := what }
  else { st with count := count + 1, lastwhat := what }

@[simp] theorem storeDigit_size (D : Nat) (st : Decoder) (what : UInt8) :
    (storeDigit D st what).size = st.size := by
  simp only [storeDigit]; split_ifs <;> rfl

@[simp] theorem storeDigit_buffer (D : Nat) (st : Decoder) (what : UInt8) :
    (storeDigit D st what).buffer = st.buffer := by
  simp only [storeDigit]; split_ifs <;> rfl

/-- The `again` loop (lines 88-241) on the bytes `data` left. -/
def dtmfAgain (cfg : DtmfConfig) (fmt : Nat) (st : Decoder) (data : List UInt8) : Decoder :=
  if fmt = 0 ∨ fmt = 1 then
    let r := dtmfFill cfg fmt st.size st.buffer data
    if r.1 < cfg.npoints then { st with size := r.1, buffer := r.2.1 }
    else
      dtmfAgain cfg fmt
        (storeDigit cfg.digitsSize { st with size := 0, buffer := r.2.1 } (frameWhat cfg.npoints r.2.1)) r.2.2
  else if data = [] then st
  else if data.length < ncoeff * cfg.longBytes then st
  else
    dtmfAgain cfg fmt (storeDigit cfg.digitsSize st (dtmfWhat (dtmfCoefficients cfg data)))
      (data.drop (ncoeff * cfg.longBytes))
termination_by 2 * data.length + if st.size < cfg.npoints then 0 else 1
decreasing_by
  · rename_i hr
    simp only [r] at hr
    have := dtmfFill_length cfg fmt st.size st.buffer data
    have := cfg.npoints_pos
    simp only [storeDigit_size, this, if_true]
    split <;> omega
  · rename_i h₁ h₂
    have := cfg.longBytes_pos
    have : data.length ≠ 0 := by simpa using h₁
    simp only [storeDigit_size, List.length_drop, ncoeff] at *
    split <;> omega

/-- `dsp_dtmf_goertzel_decode(dsp, data, len, fmt)`: the decoder after the call.  The string it
returns is the `digits` of that decoder. -/
def dspDtmfGoertzelDecode (cfg : DtmfConfig) (fmt : Nat) (st : Decoder) (data : List UInt8) :
    Decoder :=
  dtmfAgain cfg fmt { st with digits := [] } data

end MisdnDsp
