import MisdnDsp.Cmx.Links
import MisdnDsp.Cmx.Relay
import MisdnDsp.Cmx.Units

/-!
# Every crossconnect names a live pair

`dsp_cmx` crossconnects two channels on their chip with `dsp_cmx_hfc_cross_message(.., 1)` (lines
591-600 and 703-712) only for a conference whose chain is exactly those two nodes.  Every
crossconnect that a `dsp_cmx` call enables, from a reachable registry, joins the two members of a
conference that the call leaves in `Conf_list` with solution 0: when they are issued, the
directives agree with the registry.

* `Conference.Enables`: the crossconnects a list of directives enables join the chain of a
  conference, crossconnected;
* `removeHw_enables`, `addHw_enables`: the bookkeeping enables a crossconnect only at its last
  stage, for the chain it leaves;
* `removeFromConf_enables`, `addToConf_enables`: the two blocks store that conference, and the add
  block keeps the one the remove block left, since it touches only the conference of the new
  `conf_id`;
* `reachable_crossconnects_live`: every step from a reachable state.
-/

namespace MisdnDsp

variable {k : Nat}

/-- No directive of `ds` enables a crossconnect. -/
def NoEnable (ds : List Directive) : Prop := ∀ d₁ d₂, Directive.cross d₁ d₂ true ∉ ds

/-- Every crossconnect that `ds` enables joins the two members of `c`, and `c` is crossconnected. -/
def Conference.Enables (c : Conference k) (ds : List Directive) : Prop :=
  ∀ d₁ d₂, Directive.cross d₁ d₂ true ∈ ds → c.mlist.map (·.dsp) = [d₁, d₂] ∧ c.solution = 0

theorem NoEnable.enables {ds : List Directive} (h : NoEnable ds) (c : Conference k) : c.Enables ds :=
  fun d₁ d₂ hx => absurd hx (h d₁ d₂)

/-- Unit assignments enable no crossconnect. -/
theorem NoEnable.append_conf {ds : List Directive} (h : NoEnable ds) (ms : List ConfMember) (n : Int) :
    NoEnable (ds ++ ms.map fun m => .conf m.dsp n) := fun d₁ d₂ hx => by
  simpa using (List.mem_append.1 hx).resolve_right (by simp) |> h d₁ d₂

/-! ### The stages of the bookkeeping -/

theorem hwCrossRelease_noEnable {pair : Option (ConfMember × ConfMember)} {c : Conference k}
    {ds : List Directive} {cd : Conference k × List Directive} (h : hwCrossRelease pair c ds = .ok cd)
    (hds : NoEnable ds) : NoEnable cd.2 := by
  unfold hwCrossRelease at h
  split at h
  · cases h
  · cases h
    intro d₁ d₂ hx
    simpa using (List.mem_append.1 hx).resolve_right (by simp) |> hds d₁ d₂

/-- Lines 591-600 and 703-712: the crossconnect of the two nodes of the chain, and solution 0. -/
theorem hwCrossConnect_enables {hfc : Nat} {c : Conference k} {ds : List Directive}
    {cd : Conference k × List Directive} (h : hwCrossConnect hfc c ds = .ok cd) (hds : NoEnable ds) :
    cd.1.Enables cd.2 := by
  unfold hwCrossConnect at h
  split at h
  · rename_i m₁ m₂ hm
    cases h
    intro d₁ d₂ hx
    rcases List.mem_append.1 hx with hx | hx
    · exact absurd hx (hds d₁ d₂)
    · obtain ⟨rfl, rfl, -⟩ := Directive.cross.inj (List.mem_singleton.1 hx)
      exact ⟨by simp [hm], rfl⟩
  · cases h

/-- The bookkeeping of lines 557-601: the crossconnect stage comes last. -/
theorem removeHw_enables (d hfc : Nat) (pair : Option (ConfMember × ConfMember)) (old new : Int)
    (c : Conference k) : (removeHw d hfc pair old new c).1.Enables (removeHw d hfc pair old new c).2.1 := by
  unfold removeHw
  dsimp only
  have h₀ : NoEnable (if new > 0 ∧ old > 0 then [Directive.conf d 0] else []) := by
    split_ifs <;> simp [NoEnable]
  generalize (if new > 0 ∧ old > 0 then [Directive.conf d 0] else []) = ds₀ at h₀ ⊢
  have h₁ : NoEnable (if new ≤ 0 ∧ old > 0 then hwConfRelease c ds₀ else (c, ds₀)).2 := by
    split_ifs
    exacts [h₀.append_conf _ _, h₀]
  generalize (if new ≤ 0 ∧ old > 0 then hwConfRelease c ds₀ else (c, ds₀)) = cd₀ at h₁ ⊢
  split
  · exact h₁.enables _
  · rename_i cd hcd
    have h₂ := dirs_of_ite NoEnable h₁ (fun _ h => hwCrossRelease_noEnable h h₁) hcd
    split
    · exact h₂.enables _
    · rename_i cd' hcd'
      split at hcd'
      · exact hwCrossConnect_enables hcd' h₂
      · cases hcd'; exact h₂.enables _

/-- The bookkeeping of lines 658-713: the unit assignments of lines 684-696 come before the
crossconnect stage, which comes last. -/
theorem addHw_enables (hfc : Nat) (pair : Option (ConfMember × ConfMember)) (old new : Int)
    (c : Conference k) : (addHw hfc pair old new c).1.Enables (addHw hfc pair old new c).2.1 := by
  unfold addHw
  dsimp only
  have h₁ : NoEnable (if new ≤ 0 ∧ old > 0 then hwConfRelease c [] else (c, [])).2 := by
    split_ifs
    exacts [NoEnable.append_conf (by simp [NoEnable]) _ _, by simp [NoEnable]]
  generalize (if new ≤ 0 ∧ old > 0 then hwConfRelease c [] else (c, [])) = cd₀ at h₁ ⊢
  split
  · exact h₁.enables _
  · rename_i cd hcd
    have h₂ := dirs_of_ite NoEnable h₁ (fun _ h => hwCrossRelease_noEnable h h₁) hcd
    have h₃ : NoEnable (if new > 0 then hwConfConnect new hfc cd.1 cd.2 else cd).2 := by
      split_ifs
      exacts [h₂.append_conf _ _, h₂]
    generalize (if new > 0 then hwConfConnect new hfc cd.1 cd.2 else cd) = cd₁ at h₃ ⊢
    split
    · exact h₃.enables _
    · rename_i cd' hcd'
      split at hcd'
      · exact hwCrossConnect_enables hcd' h₃
      · cases hcd'; exact h₃.enables _

/-! ### The blocks of `dsp_cmx` -/

theorem Cmx.mem_setConf_of_ne {s : Cmx k} {a : Nat} {x : Conference k} (hx : x ∈ s.confList)
    (hne : x.addr ≠ a) (c : Conference k) : x ∈ (s.setConf a c).confList := by
  rw [Cmx.setConf_confList, List.mem_map]
  exact ⟨x, hx, if_neg hne⟩

/-- `dsp_cmx_del_conf_member` leaves the channel's conference at its address, with its id. -/
theorem dspCmxDelConfMember_confAt {s s₁ : Cmx k} {d : Nat} {c : Conference k}
    (hc : s.dspConf d = some c) (hd : dspCmxDelConfMember s d = .ok s₁) :
    ∃ c₁, s₁.confAt c.addr = some c₁ ∧ c₁.id = c.id := by
  have hca : s.confAt c.addr = some c := by
    simp only [Cmx.dspConf, Option.bind_eq_some] at hc
    obtain ⟨a, -, hca⟩ := hc
    rwa [Cmx.confAt_addr hca]
  unfold dspCmxDelConfMember at hd
  rw [hc] at hd
  dsimp only at hd
  split_ifs at hd
  split at hd
  · cases hd
  · cases hd
    exact ⟨_, Cmx.confAt_setConf hca rfl, rfl⟩

/-- `dsp_cmx_add_conf_member` rewrites only the conference it links the channel into. -/
theorem dspCmxAddConfMember_mem {tab : AudioTables} {ok : Bool} {s s₂ : Cmx k} {d : Nat}
    {c x : Conference k} (ha : dspCmxAddConfMember tab ok s d c = .ok s₂) (hx : x ∈ s.confList)
    (hne : x.addr ≠ c.addr) : x ∈ s₂.confList := by
  unfold dspCmxAddConfMember at ha
  dsimp only at ha
  split_ifs at ha <;> cases ha <;> exact Cmx.mem_setConf_of_ne hx hne _

/-- Lines 537-608: a crossconnect the remove block enables joins the two members left in the
conference, which it leaves crossconnected, with its id. -/
theorem removeFromConf_enables {fuel : Nat} {s : Cmx k} {d : Nat} {c : Conference k}
    (hc : s.dspConf d = some c) {s' : Cmx k} {ds : List Directive} {r : Option Int}
    (hr : removeFromConf fuel s d c = some (s', ds, r)) :
    ∀ d₁ d₂, Directive.cross d₁ d₂ true ∈ ds → ∃ c' ∈ s'.confList, c'.id = c.id ∧
      c'.mlist.map (·.dsp) = [d₁, d₂] ∧ c'.solution = 0 := by
  rcases removeFromConf_cases hr with ⟨-, -, -, rfl, -⟩ | ⟨s₁, c₁, new, R, h₁, hc₁, -, hR, rfl, hs'⟩
  · simp
  intro d₁ d₂ hx
  have hE : R.1.Enables R.2.1 := by rw [hR]; exact removeHw_enables _ _ _ _ _ _
  obtain ⟨hm, hsol⟩ := hE d₁ d₂ hx
  obtain ⟨c₁', hc₁', hid⟩ := dspCmxDelConfMember_confAt hc h₁
  obtain rfl : c₁ = c₁' := Option.some_inj.1 (hc₁.symm.trans hc₁')
  have hRid : R.1.id = c.id := by rw [hR, (removeHw_spec _ _ _ _ _ c₁).1.2.1, hid]
  rcases hs' with ⟨rfl, -⟩ | ⟨-, hdel, -⟩
  · exact ⟨R.1, Cmx.mem_setConf_of_confAt hc₁ _, hRid, hm, hsol⟩
  · -- `dsp_cmx_del_conf` removes only a conference without members
    have hnil : R.1.mlist = [] := by
      by_contra hne
      simp [dspCmxDelConf, hne] at hdel
    simp [hnil] at hm

/-- Lines 611-717: the add block stores the conference it crossconnects, and keeps every
conference of another `conf_id`, with the crossconnects enabled before it. -/
theorem addToConf_enables {tab : AudioTables} {fuel : Nat} {ok : Vmalloc} {s : Cmx k} (h : s.Wf)
    {ds : List Directive} {d : Nat}
    (hds : ∀ d₁ d₂, Directive.cross d₁ d₂ true ∈ ds → ∃ c' ∈ s.confList,
      ((s.dsps d).confId ≠ 0 → (s.dsps d).bActive = true → c'.id ≠ (s.dsps d).confId) ∧
      c'.mlist.map (·.dsp) = [d₁, d₂] ∧ c'.solution = 0)
    {s' : Cmx k} {ds' : List Directive} {r : Int} (hr : addToConf tab fuel ok s ds d = some (s', ds', r)) :
    ∀ d₁ d₂, Directive.cross d₁ d₂ true ∈ ds' → ∃ c' ∈ s'.confList,
      c'.mlist.map (·.dsp) = [d₁, d₂] ∧ c'.solution = 0 := by
  rcases addToConf_cases hr with ⟨rfl, rfl, -⟩ | ⟨hon, s₁, c, hfound, hadd⟩
  · exact fun d₁ d₂ hx => (hds d₁ d₂ hx).imp fun c' ⟨hc', _, hm⟩ => ⟨hc', hm⟩
  simp only [not_or, Bool.not_eq_false] at hon
  -- the conferences of other ids are still there, at other addresses than the one `d` joins
  have hkeep : ∀ c' ∈ s.confList, c'.id ≠ (s.dsps d).confId → c' ∈ s₁.confList ∧ c'.addr ≠ c.addr := by
    rcases hfound with ⟨hs, rfl⟩ | ⟨-, hn⟩
    · obtain ⟨hcm, hcid⟩ := dspCmxSearchConf_some hs
      exact fun c' hc' hid => ⟨hc', fun ha => hid (by rw [h.eq_of_addr hc' hcm ha, hcid])⟩
    · unfold dspCmxNewConf at hn
      split_ifs at hn
      cases hn
      exact fun c' hc' _ => ⟨List.mem_append_left _ hc', (h.addr_lt c' hc').ne⟩
  have hold : ∀ d₁ d₂, Directive.cross d₁ d₂ true ∈ ds → ∃ c' ∈ s₁.confList, c'.addr ≠ c.addr ∧
      c'.mlist.map (·.dsp) = [d₁, d₂] ∧ c'.solution = 0 := fun d₁ d₂ hx => by
    obtain ⟨c', hc', hid, hm⟩ := hds d₁ d₂ hx
    obtain ⟨hc'₁, hne⟩ := hkeep c' hc' (hid hon.1 hon.2)
    exact ⟨c', hc'₁, hne, hm⟩
  rcases hadd with ⟨rfl, rfl, -⟩ |
    ⟨s₂, h₂, ⟨-, rfl, rfl, -⟩ | ⟨c₂, new, R, hc₂, -, hR, rfl, rfl, -⟩⟩
  · exact fun d₁ d₂ hx => (hold d₁ d₂ hx).imp fun c' ⟨hc', _, hm⟩ => ⟨hc', hm⟩
  · exact fun d₁ d₂ hx => (hold d₁ d₂ hx).imp fun c' ⟨hc', hne, hm⟩ =>
      ⟨dspCmxAddConfMember_mem h₂ hc' hne, hm⟩
  · intro d₁ d₂ hx
    rcases List.mem_append.1 hx with hx | hx
    · obtain ⟨c', hc', hne, hm⟩ := hold d₁ d₂ hx
      exact ⟨c', Cmx.mem_setConf_of_ne (dspCmxAddConfMember_mem h₂ hc' hne) hne _, hm⟩
    · have hE : R.1.Enables R.2.1 := by rw [hR]; exact addHw_enables _ _ _ _ _
      exact ⟨R.1, Cmx.mem_setConf_of_confAt hc₂ _, hE d₁ d₂ hx⟩

/-- `dsp_cmx`: every crossconnect it enables joins the two members of a conference of `Conf_list`
after the call, crossconnected.  When the remove block falls through to the add block, the new
`conf_id` differs from the id of the conference left (line 533). -/
theorem dspCmx_enables {tab : AudioTables} {fuel : Nat} {ok : Vmalloc} {s : Cmx k} (h : s.Wf)
    {d : Nat} {s' : Cmx k} {ds : List Directive} {r : Int} (hr : dspCmx tab fuel ok s d = some (s', ds, r)) :
    ∀ d₁ d₂, Directive.cross d₁ d₂ true ∈ ds → ∃ c' ∈ s'.confList,
      c'.mlist.map (·.dsp) = [d₁, d₂] ∧ c'.solution = 0 := by
  rcases dspCmx_cases hr with ⟨-, rfl, -⟩ | ⟨-, ha⟩ | ⟨c, hc, hne, hrm | ⟨s₁, ds₁, hrm, ha⟩⟩
  · simp
  · exact addToConf_enables h (by simp) ha
  · exact fun d₁ d₂ hx => (removeFromConf_enables hc hrm d₁ d₂ hx).imp fun c' ⟨hc', _, hm⟩ => ⟨hc', hm⟩
  · obtain ⟨hw₁, hid, hb, -⟩ := removeFromConf_wf h hc hrm
    refine addToConf_enables hw₁ (fun d₁ d₂ hx => ?_) ha
    obtain ⟨c', hc', hcid, hm⟩ := removeFromConf_enables hc hrm d₁ d₂ hx
    refine ⟨c', hc', fun h0 hb' he => hne ⟨hid ▸ h0, hb ▸ hb', ?_⟩, hm⟩
    rw [← hid, ← he, hcid]

/-- In every state reachable by any interleaving of the entry points, every crossconnect that the
next step enables (only `dsp_cmx` issues directives) joins the two members of a conference of
`Conf_list` after the step, whose chain is exactly those two nodes and whose solution is 0. -/
theorem reachable_crossconnects_live {tab : AudioTables} {toneCopy : Nat → List UInt8} {fuel : Nat}
    {s s' : Cmx k} {op : Op} {ds : List Directive} (hs : Reachable tab toneCopy s)
    {r : Reply} (hst : step tab toneCopy fuel s op = some (s', ds, r)) :
    ∀ d₁ d₂, Directive.cross d₁ d₂ true ∈ ds → ∃ c ∈ s'.confList,
      c.mlist.map (·.dsp) = [d₁, d₂] ∧ c.solution = 0 := by
  cases op with
  | cmx d confId bActive ok =>
    simp only [step, Option.map_eq_some'] at hst
    obtain ⟨⟨s'', ds'', r''⟩, hr, he⟩ := hst
    simp only [Prod.mk.injEq] at he
    obtain ⟨rfl, rfl, -⟩ := he
    have hw : (s.setDsp d { s.dsps d with confId := confId, bActive := bActive }).Wf := hs.wf.setDsp rfl
    exact dspCmx_enables hw hr
  | receive | send | transmit => simp only [step, Option.some.injEq, Prod.mk.injEq] at hst; simp [← hst.2]

/-- The registry after channels 0 and 9 join conferences 1 and 2. -/
def joinedTwoConfs : Cmx 13 :=
  ((run tab₀ noTone 0 (Cmx.zero fun _ => 1) (List.take 2 crossOps)).map (·.1)).getD (Cmx.zero fun _ => 1)

theorem reachable_crossconnects_live_crossedOne :
    Reachable tab₀ noTone joinedTwoConfs ∧
      step tab₀ noTone 0 joinedTwoConfs (.cmx 1 1 true ⟨true, true⟩) =
        some (crossedOne, [.cross 0 1 true], .ret 0) ∧
      ∀ d₁ d₂, Directive.cross d₁ d₂ true ∈ [Directive.cross 0 1 true] → ∃ c ∈ crossedOne.confList,
        c.mlist.map (·.dsp) = [d₁, d₂] ∧ c.solution = 0 :=
  have hr : Reachable tab₀ noTone joinedTwoConfs :=
    ⟨_, _, _, Cmx.zero_initial _, Trace.of_run (show run tab₀ noTone 0 _ (List.take 2 crossOps) =
      some (joinedTwoConfs, [], _) from rfl)⟩
  have hst : step tab₀ noTone 0 joinedTwoConfs (.cmx 1 1 true ⟨true, true⟩) =
      some (crossedOne, [.cross 0 1 true], .ret 0) := rfl
  ⟨hr, hst, reachable_crossconnects_live hr hst⟩

end MisdnDsp
