import MisdnDsp.Cmx.Membership
import MisdnDsp.Cmx.Paths

/-!
# The conference units are never used

`dsp_cmx_hfc` hands out a conference unit of the chip only from its free-unit search, which never
returns (`hfcFreeUnit_eq_none`); otherwise it returns the unit the conference already holds
(`dspCmxHfc_pos`).  So a registry in which no conference holds a unit stays so: every conference is
in software (`-1`) or crossconnected (`0`) along every run from an initial state, the branches of
`dsp_cmx` that release or connect units (lines 557-573, 658-670, 684-696) are dead, and the only
directives `dsp_cmx` issues are `dsp_cmx_hfc_cross_message`.

* `Cmx.NoUnits`: the invariant, kept by every step (`step_noUnits`);
* `removeHw_cross`, `addHw_cross`: the bookkeeping with old and new solution at most 0 only
  crossconnects;
* `trace_never_uses_units`: over every trace from an initial state.
-/

namespace MisdnDsp

variable {k : Nat}

/-- No conference holds a unit of the chip: each is in software or crossconnected. -/
def Cmx.NoUnits (s : Cmx k) : Prop := ∀ c ∈ s.confList, c.solution = -1 ∨ c.solution = 0

/-- A call of `dsp_cmx_hfc_cross_message`. -/
def Directive.isCross : Directive → Bool
  | .cross .. => true
  | .conf .. => false

/-! ### The invariant under the writes of the CMX -/

theorem Cmx.NoUnits.setConf {s : Cmx k} (h : s.NoUnits) {a : Nat} {c : Conference k}
    (hc : c.solution = -1 ∨ c.solution = 0) : (s.setConf a c).NoUnits := by
  intro x hx
  simp only [Cmx.setConf_confList, List.mem_map] at hx
  obtain ⟨y, hy, rfl⟩ := hx
  split
  · exact hc
  · exact h y hy

theorem Cmx.NoUnits.edit {s s' : Cmx k} (h : s.NoUnits) (e : CmxEdit s s') : s'.NoUnits := by
  intro c' hc'
  rcases e.confs c' hc' with ⟨c, hc, he⟩ | hf
  · rcases he.2.2.2.2.2 with hs | hs | hs
    · exact hs ▸ h c hc
    · exact .inl hs
    · exact .inr hs
  · exact hf.2.2.2

/-- `dsp_cmx_receive` rewrites a conference's pointers, `largest` and `conf_buff`, never its
solution. -/
theorem Cmx.NoUnits.receive {tab : AudioTables} {s : Cmx k} (h : s.NoUnits) (d : Nat)
    (data : List UInt8) : (dspCmxReceive tab s d data).NoUnits := by
  simp only [dspCmxReceive]
  split
  · exact h
  split
  · exact h
  split
  · split <;> exact h
  · rename_i c hc
    split_ifs <;> exact h.setConf (h c (Cmx.dspConf_mem hc))

/-! ### Only crossconnects -/

theorem hwCrossRelease_cross {pair : Option (ConfMember × ConfMember)} {c : Conference k}
    {ds : List Directive} {cd : Conference k × List Directive} (h : hwCrossRelease pair c ds = .ok cd)
    (hds : ∀ x ∈ ds, x.isCross) : ∀ x ∈ cd.2, x.isCross := by
  unfold hwCrossRelease at h
  split at h
  · cases h
  · cases h; simpa [Directive.isCross, or_imp, forall_and] using hds

theorem hwCrossConnect_cross {hfc : Nat} {c : Conference k} {ds : List Directive}
    {cd : Conference k × List Directive} (h : hwCrossConnect hfc c ds = .ok cd)
    (hds : ∀ x ∈ ds, x.isCross) : ∀ x ∈ cd.2, x.isCross := by
  unfold hwCrossConnect at h
  split at h
  · cases h; simpa [Directive.isCross, or_imp, forall_and] using hds
  · cases h

/-- Lines 557-601 with no unit before or after: only the crossconnects of lines 578-600. -/
theorem removeHw_cross (d hfc : Nat) (pair : Option (ConfMember × ConfMember)) {old new : Int}
    (c : Conference k) (hold : old ≤ 0) (hnew : new ≤ 0) :
    ∀ x ∈ (removeHw d hfc pair old new c).2.1, x.isCross := by
  simp only [removeHw, show ¬(new > 0 ∧ old > 0) by omega, show ¬(new ≤ 0 ∧ old > 0) by omega,
    if_false]
  split
  · simp
  · rename_i cd h₁
    have h₁ := dirs_of_ite (fun ds => ∀ x ∈ ds, x.isCross) (by simp)
      (fun _ h => hwCrossRelease_cross h (by simp)) h₁
    split
    · exact h₁
    · exact dirs_of_ite (fun ds => ∀ x ∈ ds, x.isCross) h₁ (fun _ h => hwCrossConnect_cross h h₁) ‹_›

/-- Lines 658-713 with no unit before or after: only the crossconnects of lines 677-712. -/
theorem addHw_cross (hfc : Nat) (pair : Option (ConfMember × ConfMember)) {old new : Int}
    (c : Conference k) (hold : old ≤ 0) (hnew : new ≤ 0) :
    ∀ x ∈ (addHw hfc pair old new c).2.1, x.isCross := by
  simp only [addHw, show ¬(new ≤ 0 ∧ old > 0) by omega, show ¬(new > 0) by omega, if_false]
  split
  · simp
  · rename_i cd h₁
    have h₁ := dirs_of_ite (fun ds => ∀ x ∈ ds, x.isCross) (by simp)
      (fun _ h => hwCrossRelease_cross h (by simp)) h₁
    split
    · exact h₁
    · exact dirs_of_ite (fun ds => ∀ x ∈ ds, x.isCross) h₁ (fun _ h => hwCrossConnect_cross h h₁) ‹_›

/-- What `dsp_cmx_hfc` says for a conference of a registry with no unit held. -/
theorem Cmx.NoUnits.hfc_nonpos {fuel : Nat} {s : Cmx k} (h : s.NoUnits) {c : Conference k}
    (hc : c ∈ s.confList) {new : Int} (hn : dspCmxHfc fuel s c = some new) : new ≤ 0 ∧ c.solution ≤ 0 := by
  have hs := h c hc
  refine ⟨Int.not_lt.1 fun hp => ?_, by omega⟩
  have := dspCmxHfc_pos hn hp
  omega

/-! ### `dsp_cmx` -/

theorem removeFromConf_cross {fuel : Nat} {s : Cmx k} (h : s.NoUnits) {d : Nat} {c : Conference k}
    (hc : s.dspConf d = some c) {s' : Cmx k} {ds : List Directive} {r : Option Int}
    (hr : removeFromConf fuel s d c = some (s', ds, r)) : ∀ x ∈ ds, x.isCross := by
  rcases removeFromConf_cases hr with ⟨-, -, -, rfl, -⟩ | ⟨s₁, c₁, new, R, h₁, hc₁, hnew, rfl, rfl, -⟩
  · simp
  have h₁ := h.edit (dspCmxDelConfMember_edit h₁)
  exact removeHw_cross _ _ _ _ (by have := h c (Cmx.dspConf_mem hc); omega)
    (h₁.hfc_nonpos (Cmx.confAt_mem hc₁) hnew).1

theorem addToConf_cross {tab : AudioTables} {fuel : Nat} {ok : Vmalloc} {s : Cmx k} (h : s.NoUnits)
    {ds : List Directive} (hds : ∀ x ∈ ds, x.isCross) {d : Nat} {s' : Cmx k} {ds' : List Directive}
    {r : Int} (hr : addToConf tab fuel ok s ds d = some (s', ds', r)) : ∀ x ∈ ds', x.isCross := by
  rcases addToConf_cases hr with ⟨-, rfl, -⟩ | ⟨-, s₁, c, hfound, hrest⟩
  · exact hds
  -- the conference of `conf_id`, found or created
  obtain ⟨h₁, hc₁⟩ : s₁.NoUnits ∧ c ∈ s₁.confList := by
    rcases hfound with ⟨hs, rfl⟩ | ⟨-, hnc⟩
    · exact ⟨h, (dspCmxSearchConf_some hs).1⟩
    · obtain ⟨e, hc⟩ := dspCmxNewConf_edit hnc
      exact ⟨h.edit e, hc⟩
  rcases hrest with ⟨-, rfl, -⟩ | ⟨s₂, h₂, ⟨-, -, rfl, -⟩ | ⟨c₂, new, R, hc₂, hnew, rfl, -, rfl, -⟩⟩
  · exact hds
  · exact hds
  have h₂ := h₁.edit (dspCmxAddConfMember_edit hc₁ h₂)
  obtain ⟨hn, ho⟩ := h₂.hfc_nonpos (Cmx.confAt_mem hc₂) hnew
  simpa [or_imp, forall_and] using ⟨hds, addHw_cross _ _ _ ho hn⟩

/-- `dsp_cmx` keeps every conference out of the units and issues only crossconnects. -/
theorem dspCmx_cross {tab : AudioTables} {fuel : Nat} {ok : Vmalloc} {s : Cmx k} (h : s.NoUnits)
    {d : Nat} {s' : Cmx k} {ds : List Directive} {r : Int}
    (hr : dspCmx tab fuel ok s d = some (s', ds, r)) : s'.NoUnits ∧ ∀ x ∈ ds, x.isCross := by
  refine ⟨h.edit (dspCmx_edit hr), ?_⟩
  rcases dspCmx_cases hr with ⟨-, rfl, -⟩ | ⟨-, ha⟩ | ⟨c, hc, -, hrm | ⟨s₁, ds₁, hrm, ha⟩⟩
  · simp
  · exact addToConf_cross h (by simp) ha
  · exact removeFromConf_cross h hc hrm
  · exact addToConf_cross (h.edit (removeFromConf_edit hrm)) (removeFromConf_cross h hc hrm) ha

/-! ### Every run -/

theorem step_noUnits {tab : AudioTables} {toneCopy : Nat → List UInt8} {fuel : Nat} {s s' : Cmx k}
    {op : Op} {ds : List Directive} {r : Reply} (h : s.NoUnits)
    (hs : step tab toneCopy fuel s op = some (s', ds, r)) : s'.NoUnits ∧ ∀ x ∈ ds, x.isCross := by
  cases op with
  | receive d data =>
    simp only [step, Option.some.injEq, Prod.mk.injEq] at hs
    obtain ⟨rfl, rfl, -⟩ := hs
    exact ⟨h.receive d data, by simp⟩
  | send d len =>
    simp only [step, Option.some.injEq, Prod.mk.injEq] at hs
    obtain ⟨rfl, rfl, -⟩ := hs
    obtain ⟨_, _, _, e⟩ := dspCmxSend_state tab toneCopy s d len
    exact ⟨e ▸ h, by simp⟩
  | transmit d data =>
    simp only [step, Option.some.injEq, Prod.mk.injEq] at hs
    obtain ⟨rfl, rfl, -⟩ := hs
    exact ⟨h, by simp⟩
  | cmx d confId bActive ok =>
    simp only [step, Option.map_eq_some'] at hs
    obtain ⟨⟨s₁, ds₁, r₁⟩, h₁, he⟩ := hs
    simp only [Prod.mk.injEq] at he
    obtain ⟨rfl, rfl, -⟩ := he
    exact dspCmx_cross (s := s.setDsp d _) h h₁

theorem Trace.noUnits {tab : AudioTables} {toneCopy : Nat → List UInt8} {s₀ s : Cmx k}
    {ops : List Op} {ds : List Directive} (h₀ : s₀.NoUnits) (tr : Trace tab toneCopy s₀ ops ds s) :
    s.NoUnits ∧ ∀ x ∈ ds, x.isCross := by
  induction tr with
  | nil => exact ⟨h₀, by simp⟩
  | snoc _ hs ih =>
    obtain ⟨h', hds'⟩ := step_noUnits ih.1 hs
    simpa [or_imp, forall_and] using ⟨h', ih.2, hds'⟩

/-- Along every run from an initial state, every conference is in software or crossconnected, and
every directive issued is `dsp_cmx_hfc_cross_message`: no conference unit is ever connected. -/
theorem trace_never_uses_units {tab : AudioTables} {toneCopy : Nat → List UInt8} {s₀ s : Cmx k}
    {ops : List Op} {ds : List Directive} (h₀ : s₀.Initial) (tr : Trace tab toneCopy s₀ ops ds s) :
    (∀ c ∈ s.confList, c.solution = -1 ∨ c.solution = 0) ∧
      ∀ x ∈ ds, ∃ d₁ d₂ e, x = .cross d₁ d₂ e := by
  have hi : s₀.NoUnits := fun c hc => by simp [h₀.1] at hc
  obtain ⟨h, hds⟩ := tr.noUnits hi
  refine ⟨h, fun x hx => ?_⟩
  have := hds x hx
  cases x with
  | cross d₁ d₂ e => exact ⟨d₁, d₂, e, rfl⟩
  | conf => simp [Directive.isCross] at this

/-- Channel 0 joins conference 1, channel 9 opens conference 2 behind it, and channel 1 joins
conference 1; all on chip 1. -/
def crossOps : List Op :=
  [.cmx 0 1 true ⟨true, true⟩, .cmx 9 2 true ⟨true, true⟩, .cmx 1 1 true ⟨true, true⟩]

/-- The registry after `crossOps`: conference 1 is crossconnected. -/
def crossedOne : Cmx 13 :=
  ((run tab₀ noTone 0 (Cmx.zero fun _ => 1) crossOps).map (·.1)).getD (Cmx.zero fun _ => 1)

theorem trace_never_uses_units_crossedOne :
    (Cmx.zero fun _ => 1 : Cmx 13).Initial ∧
      Trace tab₀ noTone (Cmx.zero fun _ => 1 : Cmx 13) crossOps [.cross 0 1 true] crossedOne ∧
      ((∀ c ∈ crossedOne.confList, c.solution = -1 ∨ c.solution = 0) ∧
        ∀ x ∈ [Directive.cross 0 1 true], ∃ d₁ d₂ e, x = .cross d₁ d₂ e) :=
  have tr : Trace tab₀ noTone (Cmx.zero fun _ => 1 : Cmx 13) crossOps [.cross 0 1 true] crossedOne :=
    Trace.of_run (show run tab₀ noTone 0 _ crossOps = some (crossedOne, [.cross 0 1 true], _) from rfl)
  ⟨Cmx.zero_initial _, tr, trace_never_uses_units (Cmx.zero_initial _) tr⟩

end MisdnDsp
