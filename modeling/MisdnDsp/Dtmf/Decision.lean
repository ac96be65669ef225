import MisdnDsp.Dtmf.Decode

/-!
# The digit of a frame: the scan of lines 152-213 and a rule without it

`dtmfWhat` clamps the eight squared magnitudes at 0, takes the largest one above `DTMF_TRESH` as
`tresh`, and scans the magnitudes once against `tresh >> 3` and `tresh >> 2`, leaving the scan early
at a magnitude between the two or at a second tone of a group.  `dtmfRule` states the decision
without the scan: no magnitude lies between the two thresholds, and exactly one index of each group
reaches the upper one.

* `dtmfGroups_digit`: the scan from any index, by induction along it, whichever exit it takes;
* `tresh_eq`: the loop of lines 153-160 finds the largest magnitude above `DTMF_TRESH`;
* `dtmfWhat_eq_rule`: the code and the rule agree on every vector of eight magnitudes, those of the
  Goertzel filter and those the card delivers alike.
-/

namespace MisdnDsp

/-- `dtmf_matrix[l][h]`, 0 outside the matrix. -/
def dtmfDigit (l h : Nat) : UInt8 :=
  match (dtmfMatrix.get? l).bind (·.get? h) with
  | some c => c.toNat.toUInt8
  | none => 0

/-- Lines 211-213: the digit of `(lowgroup, highgroup)`, 0 unless both are set. -/
def groupsDigit (g : Int × Int) : UInt8 :=
  if g.1 ≥ 0 ∧ g.2 ≥ 0 then dtmfDigit g.1.toNat g.2.toNat else 0

/-- The digit of the only low index `l` and the only high index `h`, 0 unless there is exactly one
of each. -/
def pickPair : List Nat → List Nat → UInt8
  | [l], [h] => dtmfDigit l (h - 4)
  | _, _ => 0

/-- The rule without the scan: with `r i = max (result i) 0` and `T` the largest `r i` above
`DTMF_TRESH`, the digit is 0 if there is none or if some `r i` lies in `[T >> 3, T >> 2)`, and
otherwise `dtmf_matrix[l][h - 4]` when exactly one low index `l < 4` and exactly one high index
`h ≥ 4` have `r i ≥ T >> 2`, and 0 otherwise. -/
def dtmfRule (result : Fin 8 → Int) : UInt8 :=
  let r : Nat → Int := fun i => if h : i < 8 then max (result ⟨i, h⟩) 0 else 0
  match (((List.range 8).map r).filter (· > dtmfTresh)).max? with
  | none => 0
  | some T =>
    if (List.range 8).any (fun i => T >>> 3 ≤ r i && r i < T >>> 2) then 0
    else pickPair ((List.range 8).filter fun i => i < 4 && T >>> 2 ≤ r i)
      ((List.range 8).filter fun i => 4 ≤ i && T >>> 2 ≤ r i)

theorem pickPair_eq_zero {L H : List Nat} (h : L.length ≠ 1 ∨ H.length ≠ 1) : pickPair L H = 0 := by
  unfold pickPair
  split
  · simp at h
  · rfl

/-! ### The scan -/

/-- The scan from index `i` with the groups `(lo, hi)` found so far gives the digit of the indices
that reach `t`, unless a magnitude lies in `[tl, t)`; a group found before counts as one index. -/
theorem dtmfGroups_digit (tl t : Int) (htl : tl ≤ t) (r : Nat → Int) :
    ∀ (n i : Nat) (lo hi : Int),
      groupsDigit (dtmfGroups tl t i ((List.range' i n).map r) (lo, hi)) =
        if (List.range' i n).any (fun j => tl ≤ r j && r j < t) then 0
        else pickPair ((if 0 ≤ lo then [lo.toNat] else []) ++
            (List.range' i n).filter fun j => j < 4 && t ≤ r j)
          ((if 0 ≤ hi then [hi.toNat + 4] else []) ++
            (List.range' i n).filter fun j => 4 ≤ j && t ≤ r j)
  | 0, i, lo, hi => by
    simp only [List.range'_zero, List.map_nil, dtmfGroups, List.any_nil, List.filter_nil,
      List.append_nil, Bool.false_eq_true, if_false, groupsDigit]
    by_cases hl : 0 ≤ lo <;> by_cases hh : 0 ≤ hi <;>
      simp [hl, hh, pickPair, pickPair_eq_zero]
  | n + 1, i, lo, hi => by
    have h4 : ncoeff / 2 = 4 := rfl
    have ih := dtmfGroups_digit tl t htl r n (i + 1)
    simp only [List.range'_succ, List.map_cons, dtmfGroups, List.any_cons, List.filter_cons, h4]
    by_cases h₁ : r i < tl
    · -- below both thresholds: ignored
      have e₁ : decide (tl ≤ r i) = false := decide_eq_false (by omega)
      have e₂ : decide (t ≤ r i) = false := decide_eq_false (by omega)
      simp only [if_pos h₁, ih, e₁, e₂, Bool.false_and, Bool.false_or, Bool.and_false,
        Bool.false_eq_true, if_false]
    by_cases h₂ : r i < t
    · -- between the thresholds: noise, the scan stops
      have e : (decide (tl ≤ r i) && decide (r i < t)) = true := by
        simp only [Bool.and_eq_true, decide_eq_true_eq]; exact ⟨by omega, h₂⟩
      simp only [if_neg h₁, if_pos h₂, e, Bool.true_or, if_true]
      rfl
    have e₁ : (decide (tl ≤ r i) && decide (r i < t)) = false := by
      simp only [Bool.and_eq_false_iff, decide_eq_false_iff_not]; exact Or.inr h₂
    have e₂ : decide (t ≤ r i) = true := decide_eq_true (by omega)
    simp only [if_neg h₁, if_neg h₂, e₁, e₂, Bool.false_or, Bool.and_true]
    by_cases hi4 : i < 4
    · -- a low tone
      have e₃ : decide (4 ≤ i) = false := decide_eq_false (by omega)
      simp only [if_pos hi4, decide_eq_true hi4, e₃, if_true, Bool.false_eq_true, if_false]
      by_cases hl : 0 ≤ lo
      · -- a second one: the scan stops
        simp only [if_pos hl]
        split <;> simp [groupsDigit, pickPair_eq_zero]
      · rw [if_neg hl, ih i hi]
        simp [if_neg hl]
    · -- a high tone
      have e₃ : decide (i < 4) = false := decide_eq_false hi4
      simp only [if_neg hi4, decide_eq_true (by omega : 4 ≤ i), e₃, if_true, Bool.false_eq_true,
        if_false]
      by_cases hh : 0 ≤ hi
      · -- a second one: the scan stops
        simp only [if_pos hh]
        split <;> simp [groupsDigit, pickPair_eq_zero]
      · rw [if_neg hh, ih lo (i - 4 : Nat)]
        simp [if_neg hh, show i - 4 + 4 = i by omega]

/-! ### The threshold -/

theorem le_foldl_max (a : Int) (l : List Int) : a ≤ l.foldl max a := by
  induction l generalizing a with
  | nil => exact le_refl a
  | cons b l ih => exact (le_max_left a b).trans (ih _)

/-- The loop of lines 153-160 takes the largest magnitude above `DTMF_TRESH`. -/
theorem tresh_eq (L : List Int) (t : Int) :
    L.foldl (fun t r => if r > dtmfTresh then (if r > t then r else t) else t) t =
      (L.filter (· > dtmfTresh)).foldl max t := by
  induction L generalizing t with
  | nil => rfl
  | cons x L ih =>
    simp only [List.foldl_cons, List.filter_cons, ih]
    by_cases hx : x > dtmfTresh
    · simp only [hx, decide_True, if_true, List.foldl_cons]
      congr 1
      split <;> omega
    · simp [hx]

/-- The code and the rule decide every vector of eight squared magnitudes alike. -/
theorem dtmfWhat_ofFn (result : Fin 8 → Int) : dtmfWhat (List.ofFn result) = dtmfRule result := by
  set r : Nat → Int := fun i => if h : i < 8 then max (result ⟨i, h⟩) 0 else 0 with hr
  have hL : (List.ofFn result).map (fun x => if x < 0 then 0 else x) = (List.range 8).map r := by
    refine List.ext_getElem (by simp) fun i h₁ h₂ => ?_
    simp only [List.getElem_map, List.getElem_ofFn, List.getElem_range, hr]
    simp only [List.length_map, List.length_ofFn] at h₁
    rw [dif_pos h₁]
    split <;> omega
  unfold dtmfWhat dtmfRule
  dsimp only
  rw [hL, tresh_eq]
  rcases hF : ((List.range 8).map r).filter (· > dtmfTresh) with _ | ⟨a, as⟩
  · rfl
  have ha : dtmfTresh < a := by
    have := List.mem_filter.1 (hF ▸ List.mem_cons_self a as : a ∈ ((List.range 8).map r).filter _)
    simpa using this.2
  have hT : a ≤ as.foldl max a := le_foldl_max a as
  have h0 : max 0 a = a := max_eq_right (by unfold dtmfTresh at ha; omega)
  have hne : as.foldl max a ≠ 0 := by unfold dtmfTresh at ha; omega
  simp only [List.foldl_cons, h0, if_neg hne]
  have hle : as.foldl max a >>> 3 ≤ as.foldl max a >>> 2 := by
    rw [show (3 : Int) = ((3 : Nat) : Int) from rfl, show (2 : Int) = ((2 : Nat) : Int) from rfl,
      shr_eq_div, shr_eq_div]
    unfold dtmfTresh at ha; omega
  rw [show (a :: as).max? = some (as.foldl max a) from rfl]
  show groupsDigit (dtmfGroups _ _ 0 _ (-1, -1)) = _
  rw [List.range_eq_range', dtmfGroups_digit _ _ hle r 8 0 (-1) (-1)]
  simp only [show ¬ (0 : Int) ≤ -1 by decide, if_false, List.nil_append]

/-- The eight magnitudes of the Goertzel path, one per entry of `cos2pik`. -/
theorem cos2pik_map {α : Type} (g : Int → α) :
    cos2pik.map g = List.ofFn fun i : Fin 8 => g (cos2pik.getD i 0) := rfl

/-- The eight magnitudes of the card's path, one per `NCOEFF` index. -/
theorem range_ncoeff_map {α : Type} (g : Nat → α) :
    (List.range ncoeff).map g = List.ofFn fun i : Fin 8 => g i := rfl

/-- Lines 152-213 decide as `dtmfRule` on every vector of eight magnitudes, and so on those of the
Goertzel loop (format 0 or 1) and on the eight `signed long`s copied from the card's data. -/
theorem dtmfWhat_eq_rule :
    (∀ result : Fin 8 → Int, dtmfWhat (List.ofFn result) = dtmfRule result) ∧
    (∀ (npoints : Nat) (buf : Nat → Int),
      frameWhat npoints buf = dtmfRule fun i => goertzel npoints buf (cos2pik.getD i 0)) ∧
    ∀ (cfg : DtmfConfig) (data : List UInt8),
      dtmfWhat (dtmfCoefficients cfg data) =
        dtmfRule fun i => cfg.readLong ((data.drop (i * cfg.longBytes)).take cfg.longBytes) :=
  ⟨dtmfWhat_ofFn,
    fun npoints buf => by rw [frameWhat, cos2pik_map, dtmfWhat_ofFn],
    fun cfg data => by rw [dtmfCoefficients, range_ncoeff_map, dtmfWhat_ofFn]⟩

end MisdnDsp
