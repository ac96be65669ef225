import MisdnDsp.Cmx.Edit

/-!
# The `largest` threshold

`largest` is twice the longest frame a channel has received (the LIMITS comment of `dsp_cmx.c`);
`dsp_cmx_receive` makes a channel and its conference agree on it, and the overflow guard compares
the spread of the write pointers against it.  The update at lines 744-745 comes before the size
check at line 748, so a frame that is refused as too large still raises the channel's `largest`.

* `dspCmxReceive_too_large`: a refused frame changes nothing but the channel's `largest`;
* `LargestBound.of_step`: a bound on every `largest` survives any step whose frame is within it;
* `largest_bounded`: along any run from zero thresholds, every `largest` is at most twice the
  longest frame received, refused frames included.
-/

namespace MisdnDsp

variable {k : Nat}

/-- The frame a step hands to `dsp_cmx_receive`, by length (0 for the other entry points). -/
def Op.frameLen : Op → Nat
  | .receive _ data => data.length
  | _ => 0

/-- The longest frame received along `ops`. -/
def maxFrame (ops : List Op) : Nat := (ops.map Op.frameLen).foldr max 0

theorem maxFrame_snoc (ops : List Op) (op : Op) :
    maxFrame (ops ++ [op]) = max (maxFrame ops) op.frameLen := by
  induction ops with
  | nil => simp [maxFrame]
  | cons o ops ih =>
    simp only [maxFrame, List.cons_append, List.map_cons, List.foldr_cons] at *
    rw [ih]; omega

/-- Every channel's and every conference's `largest` is at most `B`. -/
def LargestBound (B : Nat) (s : Cmx k) : Prop :=
  (∀ d, (s.dsps d).largest ≤ B) ∧ ∀ c ∈ s.confList, c.largest ≤ B

theorem LargestBound.setDsp {B : Nat} {s : Cmx k} {d : Nat} {x : Dsp k} (h : LargestBound B s)
    (hx : x.largest ≤ B) : LargestBound B (s.setDsp d x) := by
  refine ⟨fun e => ?_, h.2⟩
  by_cases he : e = d
  · simpa [he] using hx
  · simpa [he] using h.1 e

theorem LargestBound.setConf {B : Nat} {s : Cmx k} {a : Nat} {c : Conference k}
    (h : LargestBound B s) (hc : c.largest ≤ B) : LargestBound B (s.setConf a c) := by
  refine ⟨h.1, fun c' hc' => ?_⟩
  simp only [Cmx.setConf_confList, List.mem_map] at hc'
  obtain ⟨x, hx, rfl⟩ := hc'
  split
  · exact hc
  · exact h.2 x hx

theorem LargestBound.edit {B : Nat} {s s' : Cmx k} (h : LargestBound B s) (e : CmxEdit s s') :
    LargestBound B s' := by
  refine ⟨fun d => (e.dsps d).1 ▸ h.1 d, fun c' hc' => ?_⟩
  rcases e.confs c' hc' with ⟨c, hc, he⟩ | hf
  · exact he.2.2.2.2.1 ▸ h.2 c hc
  · rw [hf.2.2.1]; exact Nat.zero_le B

/-- A frame refused as too large only raises the channel's `largest` (lines 744-751). -/
theorem dspCmxReceive_too_large (tab : AudioTables) (s : Cmx k) (d : Nat) (data : List UInt8)
    (h : cmxBuffHalf k / 4 ≤ data.length) :
    dspCmxReceive tab s d data =
      s.setDsp d { s.dsps d with largest := max (s.dsps d).largest (2 * data.length) } := by
  by_cases h₀ : data.length < 1
  · have e : max (s.dsps d).largest (2 * data.length) = (s.dsps d).largest := by omega
    simp only [dspCmxReceive, h₀, if_true, e]
    exact (Cmx.setDsp_self s d).symm
  · simp only [dspCmxReceive, h₀, if_false, h, if_true, raiseLargest_eq]

/-- `dsp_cmx_receive` keeps a bound on `largest` that covers twice the frame. -/
theorem LargestBound.receive {B : Nat} {tab : AudioTables} {s : Cmx k} {d : Nat}
    {data : List UInt8} (h : LargestBound B s) (hB : 2 * data.length ≤ B) :
    LargestBound B (dspCmxReceive tab s d data) := by
  have hx : (raiseLargest (s.dsps d) data.length).largest ≤ B := by
    rw [raiseLargest_eq]; exact max_le (h.1 d) hB
  simp only [dspCmxReceive]
  generalize raiseLargest (s.dsps d) data.length = x at hx ⊢
  cases hc : s.dspConf d with
  | none => simp only [apply_ite (LargestBound B), LargestBound.setDsp, h, hx, ite_self]
  | some c =>
    dsimp only
    have hcB := h.2 c (Cmx.dspConf_mem hc)
    -- the conference's and the channel's new thresholds
    generalize hcl : (if c.largest < x.largest then x.largest else c.largest) = cl
    have hclB : cl ≤ B := by subst hcl; split <;> omega
    generalize hdl : (if cl > x.largest then cl else x.largest) = dl
    have hdlB : dl ≤ B := by subst hdl; split <;> omega
    simp only [apply_ite (LargestBound B), LargestBound.setDsp, LargestBound.setConf, h, hx, hclB, hdlB,
      ite_self]

/-- One step keeps a bound on `largest` that covers twice its frame. -/
theorem LargestBound.of_step {B : Nat} {tab : AudioTables} {toneCopy : Nat → List UInt8} {fuel : Nat}
    {s s' : Cmx k} {op : Op} {ds : List Directive} {r : Reply} (h : LargestBound B s)
    (hB : 2 * op.frameLen ≤ B) (hs : step tab toneCopy fuel s op = some (s', ds, r)) :
    LargestBound B s' := by
  cases op with
  | receive d data =>
    simp only [step, Option.some.injEq, Prod.mk.injEq] at hs
    obtain ⟨rfl, -, -⟩ := hs
    exact h.receive hB
  | send d len =>
    simp only [step, Option.some.injEq, Prod.mk.injEq] at hs
    obtain ⟨rfl, -, -⟩ := hs
    obtain ⟨_, _, _, e⟩ := dspCmxSend_state tab toneCopy s d len
    rw [e]
    exact h.setDsp (h.1 d)
  | transmit d data =>
    simp only [step, Option.some.injEq, Prod.mk.injEq] at hs
    obtain ⟨rfl, -, -⟩ := hs
    exact h.setDsp (by simp only [dspCmxTransmit]; split <;> exact h.1 d)
  | cmx d confId bActive ok =>
    simp only [step, Option.map_eq_some'] at hs
    obtain ⟨⟨s₁, ds₁, r₁⟩, h₁, he⟩ := hs
    simp only [Prod.mk.injEq] at he
    obtain ⟨rfl, -, -⟩ := he
    refine (h.setDsp ?_).edit (dspCmx_edit h₁)
    exact h.1 d

/-- Along any run from zero thresholds, every channel's and every conference's `largest` is at most
twice the longest frame received; a frame refused as too large changes nothing but its channel's
`largest`. -/
theorem largest_bounded :
    (∀ (tab : AudioTables) (toneCopy : Nat → List UInt8) (s₀ s : Cmx k) (ops : List Op)
        (ds : List Directive), Trace tab toneCopy s₀ ops ds s →
      (∀ d, (s₀.dsps d).largest = 0) → (∀ c ∈ s₀.confList, c.largest = 0) →
      (∀ d, (s.dsps d).largest ≤ 2 * maxFrame ops) ∧ ∀ c ∈ s.confList, c.largest ≤ 2 * maxFrame ops) ∧
    (∀ (tab : AudioTables) (s : Cmx k) (d : Nat) (data : List UInt8),
      cmxBuffHalf k / 4 ≤ data.length →
      dspCmxReceive tab s d data =
        s.setDsp d { s.dsps d with largest := max (s.dsps d).largest (2 * data.length) }) := by
  refine ⟨fun tab toneCopy s₀ s ops ds ht h₀ hc₀ => ?_, dspCmxReceive_too_large⟩
  induction ht with
  | nil => exact ⟨fun d => by simp [h₀ d], fun c hc => by simp [hc₀ c hc]⟩
  | @snoc ops _ _ op _ _ _ _ _ hs ih =>
    rw [maxFrame_snoc]
    exact LargestBound.of_step (B := 2 * max (maxFrame ops) op.frameLen)
      ⟨fun d => by have := ih.1 d; omega, fun c hc => by have := ih.2 c hc; omega⟩ (by omega) hs

/-- A frame of `CMX_BUFF_HALF/4` bytes, refused as too large, raises a channel's `largest` from 0 to
`CMX_BUFF_HALF/2`. -/
theorem dspCmxReceive_too_large_raises :
    cmxBuffHalf 13 / 4 = 2048 ∧
      ((dspCmxReceive tab₀ (Cmx.zero fun _ => 0 : Cmx 13) 0 (List.replicate 2048 0)).dsps 0).largest =
        4096 := by
  have h : cmxBuffHalf 13 / 4 = 2048 := by decide
  refine ⟨h, ?_⟩
  rw [dspCmxReceive_too_large _ _ _ _ (by rw [h, List.length_replicate])]
  simp only [Cmx.setDsp_dsps, if_true, List.length_replicate]
  rfl

end MisdnDsp
