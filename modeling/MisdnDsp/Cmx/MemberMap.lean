import MisdnDsp.Cmx.Links

/-!
# The registry as a map from channels to conferences

The layer above sees the registry as a map: the id of the conference each channel is in, or none
(`Cmx.memberships`).  It asks for a membership by setting a channel's `conf_id` and `b_active` and
calling `dsp_cmx` (`requested`).  From every reachable state that call refines the update of the map
at the one channel (`dspCmx_refines_memberships`): no other channel's membership changes, the
channel ends in the conference it asked for or in none, and in the one it asked for when the call
returns 0.  Every error path leaves it in no conference, except the `-EINVAL` of the bookkeeping
after a join, which leaves it where it asked to be.

* `Cmx.KeepsOthers`: what a call for one channel does to the others, proved per primitive and
  composed along the paths of `Cmx/Paths.lean` (`dspCmx_keeps`), with where the channel itself ends.
-/

namespace MisdnDsp

variable {k : Nat}

/-- The id of the conference each channel is in, or `none`. -/
def Cmx.memberships (s : Cmx k) (d : Nat) : Option Nat := (s.dspConf d).map (·.id)

theorem Cmx.memberships_setDsp_of_ne (s : Cmx k) {d e : Nat} (x : Dsp k) (he : e ≠ d) :
    (s.setDsp d x).memberships e = s.memberships e := by
  simp [Cmx.memberships, Cmx.dspConf, Cmx.confAt, he]

/-- The membership that `conf_id` and `b_active` ask for. -/
def requested (confId : Nat) (bActive : Bool) : Option Nat :=
  if confId ≠ 0 ∧ bActive = true then some confId else none

/-- A call for channel `d` leaves the records of the other channels, and every conference that holds
a node of another channel stays at its address with its id and that node. -/
structure Cmx.KeepsOthers (s : Cmx k) (d : Nat) (s' : Cmx k) : Prop where
  dsps : ∀ e, e ≠ d → s'.dsps e = s.dsps e
  confs : ∀ c ∈ s.confList, ∀ m ∈ c.mlist, m.dsp ≠ d →
    ∃ c' ∈ s'.confList, c'.addr = c.addr ∧ c'.id = c.id ∧ m ∈ c'.mlist

theorem Cmx.KeepsOthers.refl (s : Cmx k) (d : Nat) : s.KeepsOthers d s :=
  ⟨fun _ _ => rfl, fun c hc _ hm _ => ⟨c, hc, rfl, rfl, hm⟩⟩

theorem Cmx.KeepsOthers.trans {s₁ s₂ s₃ : Cmx k} {d : Nat} (h₁ : s₁.KeepsOthers d s₂)
    (h₂ : s₂.KeepsOthers d s₃) : s₁.KeepsOthers d s₃ := by
  refine ⟨fun e he => (h₂.dsps e he).trans (h₁.dsps e he), fun c hc m hm hmd => ?_⟩
  obtain ⟨c₂, hc₂, ha₂, hi₂, hm₂⟩ := h₁.confs c hc m hm hmd
  obtain ⟨c₃, hc₃, ha₃, hi₃, hm₃⟩ := h₂.confs c₂ hc₂ m hm₂ hmd
  exact ⟨c₃, hc₃, ha₃.trans ha₂, hi₃.trans hi₂, hm₃⟩

/-- Rewriting one conference at its address with its id, keeping the nodes of the other channels,
and writing no other channel. -/
theorem Cmx.KeepsOthers.of_write {s s' : Cmx k} (hw : s.Wf) {c c' : Conference k} {d : Nat}
    (hc : c ∈ s.confList) (hlist : s'.confList = (s.setConf c.addr c').confList)
    (hdsps : ∀ e, e ≠ d → s'.dsps e = s.dsps e) (ha : c'.addr = c.addr) (hid : c'.id = c.id)
    (hkeep : ∀ m ∈ c.mlist, m.dsp ≠ d → m ∈ c'.mlist) : s.KeepsOthers d s' := by
  refine ⟨hdsps, fun x hx m hm hmd => ?_⟩
  rw [hlist, Cmx.setConf_confList]
  by_cases hxa : x.addr = c.addr
  · obtain rfl := hw.eq_of_addr hx hc hxa
    exact ⟨c', List.mem_map.2 ⟨x, hx, if_pos rfl⟩, ha, hid, hkeep m hm hmd⟩
  · exact ⟨x, List.mem_map.2 ⟨x, hx, if_neg hxa⟩, rfl, rfl, hm⟩

theorem Cmx.KeepsOthers.setConf_of_confAt {s : Cmx k} (hw : s.Wf) {a d : Nat}
    {c₁ c' : Conference k} (hc : s.confAt a = some c₁) (hs : c₁.SameChain c') :
    s.KeepsOthers d (s.setConf a c') := by
  rw [← Cmx.confAt_addr hc]
  exact .of_write hw (Cmx.confAt_mem hc) rfl (fun _ _ => rfl) hs.1 hs.2.1 fun m hm _ => hs.2.2 ▸ hm

/-! ### The primitives and the blocks -/

theorem dspCmxDelConfMember_keeps {s s₁ : Cmx k} {d : Nat} (hw : s.Wf)
    (hd : dspCmxDelConfMember s d = .ok s₁) : s.KeepsOthers d s₁ := by
  unfold dspCmxDelConfMember at hd
  split at hd
  · cases hd
  rename_i c hc
  split_ifs at hd
  split at hd
  · cases hd
  rename_i m hfm
  cases hd
  have hmd : m.dsp = d := by simpa using List.find?_some hfm
  exact .of_write hw (Cmx.dspConf_mem hc) rfl (fun e he => by simp [he]) rfl rfl
    fun m' hm' hne => (List.mem_erase_of_ne (by rintro rfl; exact hne hmd)).2 hm'

theorem dspCmxAddConfMember_keeps {tab : AudioTables} {ok : Bool} {s s₂ : Cmx k} {d : Nat}
    {c : Conference k} (hw : s.Wf) (hc : c ∈ s.confList)
    (ha : dspCmxAddConfMember tab ok s d c = .ok s₂) : s.KeepsOthers d s₂ := by
  unfold dspCmxAddConfMember at ha
  dsimp only at ha
  split_ifs at ha <;> cases ha <;>
    exact .of_write hw hc rfl (fun e he => by simp [he]) rfl rfl fun m hm _ => List.mem_append_left _ hm

theorem dspCmxNewConf_keeps {ok : Bool} {s s₁ : Cmx k} {id d : Nat} {c : Conference k}
    (hn : dspCmxNewConf ok s id = some (s₁, c)) : s.KeepsOthers d s₁ := by
  unfold dspCmxNewConf at hn
  split_ifs at hn
  cases hn
  exact ⟨fun _ _ => rfl, fun x hx _ hm _ => ⟨x, List.mem_append_left _ hx, rfl, rfl, hm⟩⟩

theorem dspCmxDelConf_keeps {s s₁ : Cmx k} {c : Conference k} {d : Nat} (hw : s.Wf)
    (hc : c ∈ s.confList) (hd : dspCmxDelConf s c = .ok s₁) : s.KeepsOthers d s₁ := by
  unfold dspCmxDelConf at hd
  split_ifs at hd with hm
  cases hd
  refine ⟨fun _ _ => rfl, fun x hx m hmx _ => ⟨x, List.mem_filter.2 ⟨hx, ?_⟩, rfl, rfl, hmx⟩⟩
  -- a conference with a node is not the empty one that is freed
  have hxc : x.addr ≠ c.addr := fun he => by
    obtain rfl := hw.eq_of_addr hx hc he
    simp [not_not.1 hm] at hmx
  simpa using hxc

/-- Where channel `d` may end after a block: in no conference, or in one with the id it asks for. -/
def Cmx.EndsAsked (s s' : Cmx k) (d : Nat) : Prop :=
  (s'.dsps d).conf = none ∨ ∃ c ∈ s'.confList, (s'.dsps d).conf = some c.addr ∧
    c.id = (s.dsps d).confId ∧ (s.dsps d).confId ≠ 0 ∧ (s.dsps d).bActive = true

/-- Lines 537-608: the other channels are kept, and the channel is in no conference afterwards
unless it could not be unlinked. -/
theorem removeFromConf_keeps {fuel : Nat} {s : Cmx k} (hw : s.Wf) {d : Nat} {c : Conference k}
    (hc : s.dspConf d = some c) {s' : Cmx k} {ds : List Directive} {r : Option Int}
    (hr : removeFromConf fuel s d c = some (s', ds, r)) :
    s.KeepsOthers d s' ∧
      ((s'.dsps d).conf = none ∨ s' = s ∧ ∃ e, dspCmxDelConfMember s d = .error e) := by
  rcases removeFromConf_cases hr with ⟨e, he, rfl, -, -⟩ | ⟨s₁, c₁, new, R, h₁, hc₁, -, rfl, -, hs⟩
  · exact ⟨.refl _ _, .inr ⟨rfl, e, he⟩⟩
  have hk₁ := dspCmxDelConfMember_keeps hw h₁
  obtain ⟨hw₁, hn₁, -, -⟩ := dspCmxDelConfMember_wf hw hc h₁
  have hsame := (removeHw_spec d (s.dsps d).hfcId (twoMembers c.mlist) c.solution new c₁).1
  have hk₂ := hk₁.trans (Cmx.KeepsOthers.setConf_of_confAt (d := d) hw₁ hc₁ hsame)
  rcases hs with ⟨rfl, -⟩ | ⟨-, h₃, -⟩
  · exact ⟨hk₂, .inl (by simpa using hn₁)⟩
  · have hw₂ := hw₁.setConf_of_confAt hc₁ hsame
    refine ⟨hk₂.trans (dspCmxDelConf_keeps hw₂ (Cmx.mem_setConf_of_confAt hc₁ _) h₃), .inl ?_⟩
    rw [(dspCmxDelConf_wf hw₂ (Cmx.mem_setConf_of_confAt hc₁ _) h₃).2]
    simpa using hn₁

/-- Lines 611-717, for a channel in no conference: the other channels are kept, and the channel ends
in no conference or in the one of its `conf_id`. -/
theorem addToConf_keeps {tab : AudioTables} {fuel : Nat} {ok : Vmalloc} {s : Cmx k} (hw : s.Wf)
    {ds : List Directive} {d : Nat} {s' : Cmx k} {ds' : List Directive} {r : Int}
    (hn : (s.dsps d).conf = none) (hr : addToConf tab fuel ok s ds d = some (s', ds', r)) :
    s.KeepsOthers d s' ∧ s.EndsAsked s' d := by
  rcases addToConf_cases hr with ⟨rfl, -, -⟩ | ⟨hon, s₁, c, hfound, hrest⟩
  · exact ⟨.refl _ _, .inl hn⟩
  have hon : (s.dsps d).confId ≠ 0 ∧ (s.dsps d).bActive = true := by simpa [not_or] using hon
  -- the conference of `conf_id`, found or created
  obtain ⟨hw₁, hc₁, hid, hk₁, hd₁⟩ : s₁.Wf ∧ c ∈ s₁.confList ∧ c.id = (s.dsps d).confId ∧
      s.KeepsOthers d s₁ ∧ s₁.dsps = s.dsps := by
    rcases hfound with ⟨hs, rfl⟩ | ⟨-, hnc⟩
    · exact ⟨hw, (dspCmxSearchConf_some hs).1, (dspCmxSearchConf_some hs).2, .refl _ _, rfl⟩
    · obtain ⟨hw₁, hc₁, hid, hd₁⟩ := dspCmxNewConf_wf hw hnc
      exact ⟨hw₁, hc₁, hid, dspCmxNewConf_keeps hnc, hd₁⟩
  rcases hrest with ⟨rfl, -, -⟩ | ⟨s₂, h₂, hrest⟩
  · exact ⟨hk₁, .inl (by rw [hd₁]; exact hn)⟩
  have hk₂ := hk₁.trans (dspCmxAddConfMember_keeps hw₁ hc₁ h₂)
  obtain ⟨hw₂, -, hconf₂, -, -, c', hc', hca', hcid'⟩ := dspCmxAddConfMember_wf hw₁ hc₁ h₂
  rcases hrest with ⟨-, rfl, -, -⟩ | ⟨c₂, new, R, hc₂, -, rfl, rfl, -, -⟩
  · exact ⟨hk₂, .inr ⟨c', hc', hca' ▸ hconf₂, hcid'.trans hid, hon⟩⟩
  -- the bookkeeping rewrites the conference the channel joined, with its chain
  have hsame := addHw_sameChain (s.dsps d).hfcId (twoMembers c.mlist) c₂.solution new c₂
  have e₂ : c₂ = c' := Option.some.inj (hc₂.symm.trans (hca' ▸ hw₂.confAt_eq hc'))
  subst e₂
  refine ⟨hk₂.trans (.setConf_of_confAt hw₂ hc₂ hsame),
    .inr ⟨_, Cmx.mem_setConf_of_confAt hc₂ _, ?_, hsame.2.1.trans (hcid'.trans hid), hon⟩⟩
  rw [Cmx.setConf_dsps, hconf₂, hsame.1, hca']

/-- `dsp_cmx` for channel `d` keeps the other channels, and leaves `d` in no conference or in the one
of its `conf_id`. -/
theorem dspCmx_keeps {tab : AudioTables} {fuel : Nat} {ok : Vmalloc} {s : Cmx k} (hw : s.Wf)
    {d : Nat} {s' : Cmx k} {ds : List Directive} {r : Int}
    (hr : dspCmx tab fuel ok s d = some (s', ds, r)) : s.KeepsOthers d s' ∧ s.EndsAsked s' d := by
  rcases dspCmx_cases hr with ⟨rfl, -, -, h0⟩ | ⟨hc, ha⟩ | ⟨c, hc, -, hrm | ⟨s₁, ds₁, hrm, ha⟩⟩
  · refine ⟨.refl _ _, ?_⟩
    rcases h0 with ⟨hc, -⟩ | ⟨c, hc, hon, hb, hid⟩
    · exact .inl (hw.dspConf_eq_none hc)
    · exact .inr ⟨c, Cmx.dspConf_mem hc, Cmx.dspConf_conf hc, hid.symm, hon, hb⟩
  · exact addToConf_keeps hw (hw.dspConf_eq_none hc) ha
  · obtain ⟨hk, hn | ⟨rfl, e, he⟩⟩ := removeFromConf_keeps hw hc hrm
    · exact ⟨hk, .inl hn⟩
    · -- a channel in a conference is always unlinked
      obtain ⟨s₁, h₁⟩ := hw.delConfMember_ok (Option.isSome_iff_exists.2 ⟨_, Cmx.dspConf_conf hc⟩)
      rw [h₁] at he; cases he
  · obtain ⟨hk₁, -⟩ := removeFromConf_keeps hw hc hrm
    obtain ⟨hw₁, hid₁, hb₁, hn₁, -⟩ := removeFromConf_wf hw hc hrm
    obtain ⟨hk₂, hend⟩ := addToConf_keeps hw₁ (hn₁ rfl) ha
    refine ⟨hk₁.trans hk₂, ?_⟩
    simpa only [Cmx.EndsAsked, hid₁, hb₁] using hend

/-! ### The abstract map -/

theorem Cmx.KeepsOthers.memberships_eq {s s' : Cmx k} {d : Nat} (hk : s.KeepsOthers d s')
    (hw : s.Wf) (hw' : s'.Wf) {e : Nat} (he : e ≠ d) : s'.memberships e = s.memberships e := by
  unfold Cmx.memberships Cmx.dspConf
  rw [hk.dsps e he]
  cases ha : (s.dsps e).conf with
  | none => rfl
  | some a =>
    obtain ⟨c, hc, rfl, m, hm, hmd⟩ := hw.conf_mem e a ha
    obtain ⟨c', hc', ha', hid', -⟩ := hk.confs c hc m hm (hmd ▸ he)
    simp only [Option.some_bind]
    rw [← ha', hw'.confAt_eq hc', ha', hw.confAt_eq hc]
    simp [hid']

/-- From every reachable state, a `dsp_cmx` call after the layer above sets channel `d`'s `conf_id`
and `b_active` changes the membership of no other channel, and leaves `d` in the conference it asked
for or in none; in the one it asked for when the call returns 0. -/
theorem dspCmx_refines_memberships {tab : AudioTables} {toneCopy : Nat → List UInt8} {s : Cmx k}
    (hs : Reachable tab toneCopy s) (d confId : Nat) (bActive : Bool) (fuel : Nat) (ok : Vmalloc)
    {s' : Cmx k} {ds : List Directive} {r : Int}
    (h : dspCmx tab fuel ok (s.setDsp d { s.dsps d with confId := confId, bActive := bActive }) d =
      some (s', ds, r)) :
    ∃ m, s'.memberships = Function.update s.memberships d m ∧
      (m = requested confId bActive ∨ m = none) ∧ (r = 0 → m = requested confId bActive) := by
  have hw₀ : (s.setDsp d { s.dsps d with confId := confId, bActive := bActive }).Wf :=
    hs.wf.setDsp rfl
  obtain ⟨hk, hend⟩ := dspCmx_keeps hw₀ h
  obtain ⟨hw', hid', hb', hpost⟩ := dspCmx_wf hw₀ h
  simp only [Cmx.setDsp_dsps, ite_true] at hid' hb'
  have hm : ∀ c ∈ s'.confList, (s'.dsps d).conf = some c.addr → s'.memberships d = some c.id :=
    fun c hc hconf => by simp [Cmx.memberships, Cmx.dspConf, hconf, hw'.confAt_eq hc]
  have hn : (s'.dsps d).conf = none → s'.memberships d = none := fun hn => by
    simp [Cmx.memberships, Cmx.dspConf, hn]
  refine ⟨s'.memberships d, funext fun e => ?_, ?_, fun hr0 => ?_⟩
  · by_cases he : e = d
    · subst he; simp
    · rw [Function.update_noteq he, hk.memberships_eq hw₀ hw' he, Cmx.memberships_setDsp_of_ne _ _ he]
  · rcases hend with hc | ⟨c, hc, hconf, hcid, hon, hb⟩
    · exact .inr (hn hc)
    · simp only [Cmx.setDsp_dsps, ite_true] at hcid hon hb
      exact .inl (by rw [hm c hc hconf, hcid, requested, if_pos ⟨hon, hb⟩])
  · obtain ⟨hiff, hconfs⟩ := hpost hr0
    rw [hid', hb'] at hiff
    unfold requested
    split_ifs with hon
    · obtain ⟨a, ha⟩ := Option.isSome_iff_exists.1 (hiff.2 hon)
      obtain ⟨c, hca, hcid⟩ := hconfs a ha
      rw [← Cmx.confAt_addr hca] at ha
      rw [hm c (Cmx.confAt_mem hca) ha, hcid, hid']
    · exact hn (Option.not_isSome_iff_eq_none.1 fun h => hon (hiff.1 h))

/-- Channel 0 of `joinedOne` asks for conference 2: it leaves conference 1, which is freed, and the
call creates conference 2 for it. -/
def movedTwo : Cmx 13 :=
  ((dspCmx tab₀ 0 ⟨true, true⟩ (joinedOne.setDsp 0
    { joinedOne.dsps 0 with confId := 2, bActive := true }) 0).map (·.1)).getD joinedOne

theorem dspCmx_refines_memberships_movedTwo :
    Reachable tab₀ noTone joinedOne ∧
      dspCmx tab₀ 0 ⟨true, true⟩ (joinedOne.setDsp 0
        { joinedOne.dsps 0 with confId := 2, bActive := true }) 0 = some (movedTwo, [], 0) ∧
      ∃ m, movedTwo.memberships = Function.update joinedOne.memberships 0 m ∧
        (m = requested 2 true ∨ m = none) ∧ ((0 : Int) = 0 → m = requested 2 true) :=
  have h : dspCmx tab₀ 0 ⟨true, true⟩ (joinedOne.setDsp 0
      { joinedOne.dsps 0 with confId := 2, bActive := true }) 0 = some (movedTwo, [], 0) := rfl
  ⟨joinedOne_reachable, h, dspCmx_refines_memberships joinedOne_reachable 0 2 true 0 ⟨true, true⟩ h⟩

end MisdnDsp
