import MisdnDsp.Dtmf.Decode

/-!
# The hysteresis of `storedigit`

`storedigit` (lines 215-239) sees the decision of each frame.  It counts how often the decision has
stayed the same, and once it has been the same three frames in a row it becomes `lastdigit`; a new
`lastdigit` that is a digit is appended to `digits` while there is room.

* `storeDigit_eq` says once what one call of `storedigit` does; `storeDigit_withDigits` that
  nothing but the append depends on `digits`.
* `storeDigits_digits_append`: a run that starts with more digits ends with them in front, as long as
  the array does not fill; the chunking law of the decoder rests on it.
* `HystInv.snoc`: after the decisions `ws` from `dsp_dtmf_goertzel_init`, `lastwhat` is the
  last decision, `count` the length of the last run of equal decisions capped at 2, and `lastdigit`
  the decision of the latest frame that ended a run of three.
* `storeDigit_appends_reference`: across any calls, a call returns the first `sizeof(digits) - 1` of the
  digits that the reference rule `appendsAt` picks among its frames, and `count` stays at most 2.
-/

namespace MisdnDsp

/-! ### One call of `storedigit` -/

/-- `count` after lines 219-220: 0 when the decision changed. -/
def resetCount (st : Decoder) (what : UInt8) : Nat := if st.lastwhat ≠ what then 0 else st.count

/-- Whether `storedigit` takes `what` as a new digit (lines 223-226). -/
def storeDigitNew (st : Decoder) (what : UInt8) : Bool :=
  resetCount st what == 2 && st.lastdigit != what && what != 0

theorem storeDigit_eq (D : Nat) (st : Decoder) (what : UInt8) :
    storeDigit D st what =
      { st with
        count := if resetCount st what = 2 then 2 else resetCount st what + 1
        lastwhat := what
        lastdigit := if resetCount st what = 2 then what else st.lastdigit
        digits := if storeDigitNew st what ∧ st.digits.length + 1 < D then st.digits ++ [what]
          else st.digits } := by
  by_cases h1 : st.lastwhat = what
  · by_cases h2 : st.count = 2 <;> by_cases hl : st.lastdigit = what <;>
      simp [storeDigit, storeDigitNew, resetCount, h1, h2, hl]
  · simp [storeDigit, storeDigitNew, resetCount, h1]

/-- Only the append reads `digits`. -/
theorem storeDigit_withDigits (D : Nat) (st : Decoder) (L : List UInt8) (what : UInt8) :
    storeDigit D { st with digits := L } what =
      { storeDigit D st what with
        digits := if storeDigitNew st what ∧ L.length + 1 < D then L ++ [what] else L } := by
  rw [storeDigit_eq, storeDigit_eq]
  rfl

/-! ### Runs of `storedigit` -/

/-- `storedigit` for the decisions `ws` in turn. -/
def storeDigits (D : Nat) (st : Decoder) (ws : List UInt8) : Decoder := ws.foldl (storeDigit D) st

@[simp] theorem storeDigits_nil (D : Nat) (st : Decoder) : storeDigits D st [] = st := rfl

@[simp] theorem storeDigits_cons (D : Nat) (st : Decoder) (w : UInt8) (ws : List UInt8) :
    storeDigits D st (w :: ws) = storeDigits D (storeDigit D st w) ws := rfl

theorem storeDigits_append (D : Nat) (st : Decoder) (ws ws' : List UInt8) :
    storeDigits D st (ws ++ ws') = storeDigits D (storeDigits D st ws) ws' :=
  List.foldl_append _ _ _ _

/-- `storedigit` neither reads nor writes the sample buffer and its fill level. -/
theorem storeDigits_setFrame (D : Nat) (st : Decoder) (size : Nat) (buf : Nat → Int) (ws : List UInt8) :
    storeDigits D { st with size := size, buffer := buf } ws =
      { storeDigits D st ws with size := size, buffer := buf } := by
  induction ws generalizing st with
  | nil => rfl
  | cons w ws ih =>
    simp only [storeDigits_cons]
    rw [← ih]
    congr 1
    rw [storeDigit_eq, storeDigit_eq]
    rfl

/-- A run does not read `digits` but to append to them. -/
theorem storeDigits_withDigits (D : Nat) (st : Decoder) (L : List UInt8) (ws : List UInt8) :
    { storeDigits D { st with digits := L } ws with digits := [] } =
      { storeDigits D st ws with digits := [] } := by
  induction ws generalizing st L with
  | nil => rfl
  | cons w ws ih =>
    simp only [storeDigits_cons, storeDigit_withDigits]
    rw [ih, ← ih (storeDigit D st w) (storeDigit D st w).digits]

theorem storeDigits_digits_length (D : Nat) (st : Decoder) (ws : List UInt8) :
    st.digits.length ≤ (storeDigits D st ws).digits.length := by
  induction ws generalizing st with
  | nil => exact le_refl _
  | cons w ws ih =>
    refine le_trans ?_ (ih _)
    rw [storeDigit_eq]
    split_ifs <;> simp

/-- The digits a run appends follow those it started with, as long as the array does not fill. -/
theorem storeDigits_digits_append (D : Nat) (st : Decoder) (L M : List UInt8) (ws : List UInt8)
    (h : (storeDigits D { st with digits := L ++ M } ws).digits.length + 1 < D) :
    (storeDigits D { st with digits := L ++ M } ws).digits =
      L ++ (storeDigits D { st with digits := M } ws).digits := by
  induction ws generalizing st M with
  | nil => rfl
  | cons w ws ih =>
    simp only [storeDigits_cons, storeDigit_withDigits] at h ⊢
    by_cases hn : storeDigitNew st w = true
    · -- the frame appends; both runs still have room for it
      have hroom : (L ++ M).length + 1 < D := by
        by_contra hc
        have := storeDigits_digits_length D
          { storeDigit D st w with digits := if storeDigitNew st w = true ∧ (L ++ M).length + 1 < D
            then L ++ M ++ [w] else L ++ M } ws
        simp only [hn, hc, and_false, if_false] at this h
        omega
      have hroom' : M.length + 1 < D := by simp only [List.length_append] at hroom; omega
      simp only [hn, hroom, hroom', and_self, if_true, List.append_assoc] at h ⊢
      exact ih _ _ h
    · simp only [hn, false_and, if_false] at h ⊢
      exact ih _ _ h

/-! ### The reference rule -/

/-- Frame `j` of the decisions `ws`, counted from 0, is the third or later of equal decisions in a
row. -/
def stableAt (ws : List UInt8) (j : Nat) : Bool :=
  decide (2 ≤ j ∧ j < ws.length) && ws.getD j 0 == ws.getD (j - 1) 0 &&
    ws.getD (j - 1) 0 == ws.getD (j - 2) 0

/-- The latest stable frame before frame `j`. -/
def lastStableBefore (ws : List UInt8) : Nat → Option Nat
  | 0 => none
  | j + 1 => if stableAt ws j then some j else lastStableBefore ws j

/-- Frame `j` appends its decision `d`: `d` is not 0, the frame is stable, and `d` differs from the
decision of the latest stable frame before it, if there is one. -/
def appendsAt (ws : List UInt8) (j : Nat) : Bool :=
  stableAt ws j && ws.getD j 0 != 0 &&
    match lastStableBefore ws j with
    | none => true
    | some i => ws.getD i 0 != ws.getD j 0

/-- The digits appended at frames `n, n + 1, ...` of `ws`, in order. -/
def appendedFrom (ws : List UInt8) (n : Nat) : List UInt8 :=
  ((List.range ws.length).filter fun j => decide (n ≤ j) && appendsAt ws j).map (ws.getD · 0)

theorem getD_snoc_of_lt {ws : List UInt8} {j : Nat} (w : UInt8) (h : j < ws.length) :
    (ws ++ [w]).getD j 0 = ws.getD j 0 := List.getD_append _ _ _ _ h

@[simp] theorem getD_snoc_length (ws : List UInt8) (w : UInt8) : (ws ++ [w]).getD ws.length 0 = w := by
  simp

theorem stableAt_snoc_of_lt {ws : List UInt8} {j : Nat} (w : UInt8) (h : j < ws.length) :
    stableAt (ws ++ [w]) j = stableAt ws j := by
  simp only [stableAt, getD_snoc_of_lt w h, getD_snoc_of_lt w (show j - 1 < ws.length by omega),
    getD_snoc_of_lt w (show j - 2 < ws.length by omega), List.length_append, List.length_singleton]
  congr 3
  simp only [h, and_true]; apply propext; omega

theorem lastStableBefore_snoc {ws : List UInt8} (w : UInt8) :
    ∀ {j : Nat}, j ≤ ws.length → lastStableBefore (ws ++ [w]) j = lastStableBefore ws j
  | 0, _ => rfl
  | j + 1, h => by
    simp only [lastStableBefore, stableAt_snoc_of_lt w (show j < ws.length by omega),
      lastStableBefore_snoc w (show j ≤ ws.length by omega)]

theorem lastStableBefore_lt {ws : List UInt8} : ∀ {j i : Nat}, lastStableBefore ws j = some i → i < j
  | 0, _, h => by cases h
  | j + 1, i, h => by
    simp only [lastStableBefore] at h
    split at h
    · cases h; omega
    · have := lastStableBefore_lt h; omega

theorem appendsAt_snoc_of_lt {ws : List UInt8} {j : Nat} (w : UInt8) (h : j < ws.length) :
    appendsAt (ws ++ [w]) j = appendsAt ws j := by
  simp only [appendsAt, stableAt_snoc_of_lt w h, getD_snoc_of_lt w h,
    lastStableBefore_snoc w (Nat.le_of_lt h)]
  cases hl : lastStableBefore ws j with
  | none => rfl
  | some i => simp only [getD_snoc_of_lt w (lt_trans (lastStableBefore_lt hl) h)]

theorem appendedFrom_snoc (ws : List UInt8) (w : UInt8) (n : Nat) :
    appendedFrom (ws ++ [w]) n =
      appendedFrom ws n ++ if n ≤ ws.length ∧ appendsAt (ws ++ [w]) ws.length then [w] else [] := by
  have hpre : ((List.range ws.length).filter fun j => decide (n ≤ j) && appendsAt (ws ++ [w]) j) =
      (List.range ws.length).filter fun j => decide (n ≤ j) && appendsAt ws j :=
    List.filter_congr fun j hj => by rw [appendsAt_snoc_of_lt w (List.mem_range.1 hj)]
  have hmap : ∀ l : List Nat, (∀ j ∈ l, j < ws.length) →
      l.map (fun j => (ws ++ [w]).getD j 0) = l.map (ws.getD · 0) :=
    fun l hl => List.map_congr_left fun j hj => getD_snoc_of_lt w (hl j hj)
  simp only [appendedFrom, List.length_append, List.length_singleton, List.range_succ,
    List.filter_append, List.map_append, hpre]
  rw [hmap _ fun j hj => List.mem_range.1 (List.mem_filter.1 hj).1]
  congr 1
  simp only [List.filter_cons, List.filter_nil, Bool.and_eq_true, decide_eq_true_eq]
  split <;> simp

theorem appendedFrom_length (ws : List UInt8) : appendedFrom ws ws.length = [] := by
  simp only [appendedFrom, List.map_eq_nil_iff, List.filter_eq_nil_iff, List.mem_range]
  intro j hj
  simp [show ¬ ws.length ≤ j by omega]

/-! ### The invariant of the counters -/

/-- The last decision of `ws`, 0 before the first. -/
def lastDecision (ws : List UInt8) : UInt8 := ws.getD (ws.length - 1) 0

/-- The length of the last run of equal decisions in `ws`, capped at 2. -/
def runCount (ws : List UInt8) : Nat :=
  if ws.length = 0 then 0
  else if 2 ≤ ws.length ∧ lastDecision ws = ws.getD (ws.length - 2) 0 then 2 else 1

/-- The decision of the latest stable frame of `ws`, 0 if there is none. -/
def lastStableDigit (ws : List UInt8) : UInt8 := (lastStableBefore ws ws.length).elim 0 (ws.getD · 0)

@[simp] theorem lastDecision_snoc (ws : List UInt8) (w : UInt8) : lastDecision (ws ++ [w]) = w := by
  simp [lastDecision]

theorem stableAt_snoc_length (ws : List UInt8) (w : UInt8) :
    stableAt (ws ++ [w]) ws.length =
      (decide (2 ≤ ws.length) && w == lastDecision ws && lastDecision ws == ws.getD (ws.length - 2) 0) := by
  by_cases hn : 2 ≤ ws.length
  · simp only [stableAt, getD_snoc_length, lastDecision, List.length_append, List.length_singleton,
      getD_snoc_of_lt w (show ws.length - 1 < ws.length by omega),
      getD_snoc_of_lt w (show ws.length - 2 < ws.length by omega)]
    simp [hn]
  · simp [stableAt, hn]

theorem runCount_snoc (ws : List UInt8) (w : UInt8) :
    runCount (ws ++ [w]) = if ws.length ≠ 0 ∧ lastDecision ws = w then 2 else 1 := by
  by_cases hn : ws.length = 0
  · simp [runCount, hn]
  · have := getD_snoc_of_lt w (show ws.length - 1 < ws.length by omega)
    simp only [runCount, lastDecision_snoc, List.length_append, List.length_singleton,
      show ws.length + 1 - 2 = ws.length - 1 by omega, this]
    rw [if_neg (Nat.add_one_ne_zero _)]
    by_cases hw : lastDecision ws = w
    · rw [if_pos ⟨by omega, hw.symm⟩, if_pos ⟨hn, hw⟩]
    · rw [if_neg (fun h => hw h.2.symm), if_neg (fun h => hw h.2)]

/-- Once a run has started it counts 1 or 2. -/
theorem runCount_eq_one_or_two {ws : List UInt8} (hn : ws.length ≠ 0) :
    runCount ws = 1 ∨ runCount ws = 2 := by
  simp only [runCount, hn, if_false]
  split <;> simp

theorem lastStableDigit_snoc (ws : List UInt8) (w : UInt8) :
    lastStableDigit (ws ++ [w]) = if stableAt (ws ++ [w]) ws.length then w else lastStableDigit ws := by
  simp only [lastStableDigit, List.length_append, List.length_singleton, lastStableBefore,
    lastStableBefore_snoc w (le_refl ws.length)]
  split
  · simp
  · cases hl : lastStableBefore ws ws.length with
    | none => rfl
    | some i => exact getD_snoc_of_lt w (lastStableBefore_lt hl)

/-- What the counters of `dsp->dtmf` hold after the decisions `ws` from
`dsp_dtmf_goertzel_init`. -/
structure HystInv (ws : List UInt8) (st : Decoder) : Prop where
  lastwhat : st.lastwhat = lastDecision ws
  count : st.count = runCount ws
  lastdigit : st.lastdigit = lastStableDigit ws

theorem HystInv.init (st : Decoder) : HystInv [] (dspDtmfGoertzelInit st) := ⟨rfl, rfl, rfl⟩

theorem HystInv.withDigits {ws : List UInt8} {st : Decoder} (h : HystInv ws st) (L : List UInt8) :
    HystInv ws { st with digits := L } := ⟨h.1, h.2, h.3⟩

/-- After the reset of line 220, `count` is 2 exactly at a stable frame. -/
theorem HystInv.resetCount_eq_two {ws : List UInt8} {st : Decoder} (h : HystInv ws st) (w : UInt8) :
    resetCount st w = 2 ↔ stableAt (ws ++ [w]) ws.length := by
  simp only [resetCount, h.lastwhat, h.count, runCount, stableAt_snoc_length]
  by_cases hw : lastDecision ws = w
  · by_cases hn : 2 ≤ ws.length
    · simp [hw, hn, show ws.length ≠ 0 by omega]
    · simp [hw, hn]; split <;> simp
  · simp [hw, Ne.symm hw]

/-- One `storedigit` keeps the invariant, and takes a new digit exactly at a frame where the
reference rule appends one. -/
theorem HystInv.snoc {ws : List UInt8} {st : Decoder} (h : HystInv ws st) (D : Nat) (w : UInt8) :
    HystInv (ws ++ [w]) (storeDigit D st w) ∧ storeDigitNew st w = appendsAt (ws ++ [w]) ws.length := by
  have hs := h.resetCount_eq_two w
  rw [storeDigit_eq]
  refine ⟨⟨by simp, ?_, ?_⟩, ?_⟩
  · -- the run grows while the decision stays, and restarts at 1 when it changes
    simp only [runCount_snoc]
    by_cases hw : lastDecision ws = w
    · have hc : resetCount st w = runCount ws := by simp [resetCount, h.lastwhat, h.count, hw]
      rw [hc]
      by_cases hn : ws.length = 0
      · simp [runCount, hn]
      · rcases runCount_eq_one_or_two hn with h1 | h1 <;> simp [h1, hn, hw]
    · simp [resetCount, h.lastwhat, hw]
  · simp only [lastStableDigit_snoc, ← hs, h.lastdigit]
  · have hlast : st.lastdigit = (lastStableBefore (ws ++ [w]) ws.length).elim 0 ((ws ++ [w]).getD · 0) := by
      rw [h.lastdigit, lastStableDigit, lastStableBefore_snoc w (le_refl _)]
      cases hl : lastStableBefore ws ws.length with
      | none => rfl
      | some i => exact (getD_snoc_of_lt w (lastStableBefore_lt hl)).symm
    simp only [storeDigitNew, appendsAt, getD_snoc_length, hlast]
    by_cases hst : stableAt (ws ++ [w]) ws.length
    · rw [hs.2 hst, hst]
      cases lastStableBefore (ws ++ [w]) ws.length with
      | none => by_cases hw : w = 0 <;> simp [hw, Ne.symm]
      | some i => simp [Bool.and_comm]
    · simp [mt hs.1 hst, hst]

/-- `(A ++ [w]).take m`: the new digit fits exactly when `A` is shorter than `m`. -/
theorem take_snoc (A : List UInt8) (m : Nat) (w : UInt8) :
    (A ++ [w]).take m = if A.length < m then A.take m ++ [w] else A.take m := by
  rw [List.take_append_eq_append_take]
  split
  · rw [show m - A.length = (m - A.length - 1) + 1 by omega]; simp
  · rw [show m - A.length = 0 by omega]; simp

/-- Within a call that started at frame `n` of the history, `digits` holds the first
`D - 1` digits that the reference rule appends from frame `n` on. -/
theorem HystInv.run {H : List UInt8} {st : Decoder} (h : HystInv H st) (D n : Nat)
    (hn : n ≤ H.length) (hd : st.digits = (appendedFrom H n).take (D - 1)) (ws : List UInt8) :
    HystInv (H ++ ws) (storeDigits D st ws) ∧
      (storeDigits D st ws).digits = (appendedFrom (H ++ ws) n).take (D - 1) := by
  induction ws generalizing H st with
  | nil => simpa using ⟨h, hd⟩
  | cons w ws ih =>
    obtain ⟨h', hnew⟩ := h.snoc D w
    have hd' : (storeDigit D st w).digits = (appendedFrom (H ++ [w]) n).take (D - 1) := by
      rw [appendedFrom_snoc, storeDigit_eq, hnew, hd]
      simp only [hn, true_and, List.length_take]
      by_cases ha : appendsAt (H ++ [w]) H.length = true
      · have e : (min (D - 1) (appendedFrom H n).length + 1 < D) = ((appendedFrom H n).length < D - 1) :=
          propext (by omega)
        simp only [ha, true_and, if_true, e, take_snoc]
      · simp [ha]
    have := ih h' (by simp only [List.length_append]; omega) hd'
    simpa only [storeDigits_cons, List.append_assoc, List.singleton_append] using this

/-- Calls of the decoder, each starting with empty `digits`, on the decisions `calls`. -/
def storeDigitCalls (D : Nat) (st : Decoder) (calls : List (List UInt8)) : Decoder :=
  calls.foldl (fun st ws => storeDigits D { st with digits := [] } ws) st

theorem HystInv.calls {H : List UInt8} {st : Decoder} (h : HystInv H st) (D : Nat)
    (calls : List (List UInt8)) : HystInv (H ++ calls.flatten) (storeDigitCalls D st calls) := by
  induction calls generalizing H st with
  | nil => simpa using h
  | cons ws calls ih =>
    have := (h.withDigits []).run D H.length le_rfl (by simp [appendedFrom_length]) ws
    simpa only [storeDigitCalls, List.foldl_cons, List.flatten_cons, List.append_assoc]
      using ih this.1

/-- Feed `storedigit` any decisions, over any number of calls from `dsp_dtmf_goertzel_init`: `count`
stays at most 2, and each call returns, NUL-terminated within `digits`, the first
`sizeof(digits) - 1` of the digits that the reference rule `appendsAt` appends at its frames. -/
theorem storeDigit_appends_reference (cfg : DtmfConfig) (st₀ : Decoder) (calls : List (List UInt8))
    (ws : List UInt8) :
    let st := storeDigits cfg.digitsSize
      { storeDigitCalls cfg.digitsSize (dspDtmfGoertzelInit st₀) calls with digits := [] } ws
    st.count ≤ 2 ∧
      st.digits = (appendedFrom (calls.flatten ++ ws) calls.flatten.length).take (cfg.digitsSize - 1) ∧
      st.digits.length < cfg.digitsSize := by
  have hc := (HystInv.init st₀).calls cfg.digitsSize calls
  rw [List.nil_append] at hc
  obtain ⟨hi, hd⟩ := (hc.withDigits []).run cfg.digitsSize calls.flatten.length
    le_rfl (by rw [appendedFrom_length, List.take_nil]) ws
  refine ⟨?_, hd, ?_⟩
  · rw [hi.count, runCount]; split_ifs <;> omega
  · rw [hd, List.length_take]; have := cfg.digitsSize_pos; omega

end MisdnDsp
