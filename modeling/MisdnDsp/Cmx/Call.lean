import MisdnDsp.Cmx.Relay
import MisdnDsp.Cmx.Links
import MisdnDsp.Cmx.Units

/-!
# Setting up and ending a call

The layer above connects two channels by giving both the same `conf_id` and calling `dsp_cmx` for
each.  From any reachable state in which the two channels are in no conference and no conference
has that id, the two calls return 0, issue no hardware directive, and leave the two channels the
only members of one conference, at two nodes, with all their other fields as they were
(`Cmx.Joined`, `run_joins_pairAt`).  Channels with no tx data, no tone and echo off are then synced
at its `W_max` of 0: the state from which the relay of `Cmx.PairAt` starts.

* `addToConf_of_last`: a join to the conference at the end of `Conf_list` stops at `if
  (!conf->next)` (line 647) and touches no hardware, whatever the size of its chain: the pair set up
  here stays in software;
* `dspCmxAddConfMember_last`: `dsp_cmx_add_conf_member` for an idle channel, with the conference
  still last;
* `step_join_new`, `step_join_last`: the first call creates the conference, the second finds it by
  its id.

A call ends when one party's `conf_id` is cleared.  From any reachable pair, that `dsp_cmx` call
returns 0, releases at most the crossconnect of the pair, and leaves the other party the only node
of the conference (`step_hangup`).  From then on, over every run of receptions, sends and data queued
for other channels, that party is sent silence only (`reachable_hangup_silences`): the chain of one
node takes the single branch of `dsp_cmx_send` (lines 967-970), and `Cmx.Silenced` is kept by every
such step (`Trace.silenced`).
-/

namespace MisdnDsp

variable {k : Nat}

/-! ### The end of `Conf_list` -/

theorem pairedZeroOne_reachable : Reachable tab₀ noTone pairedZeroOne :=
  ⟨_, _, _, Cmx.zero_initial _, Trace.of_run (show run tab₀ noTone 0 _
    [.cmx 0 1 true ⟨true, true⟩, .cmx 1 1 true ⟨true, true⟩] = some (pairedZeroOne, [], _) from rfl)⟩

/-- The member loop of `dsp_cmx_hfc` counts the nodes when it gets through. -/
theorem hfcMembers_eq_some {s : Cmx k} {first : Nat} :
    ∀ {ms : List ConfMember} {n : Nat}, hfcMembers s first ms = some n → n = ms.length
  | [], n, h => by simpa [hfcMembers] using h.symm
  | m :: ms, n, h => by
    simp only [hfcMembers] at h
    split_ifs at h
    obtain ⟨n', h', rfl⟩ := Option.map_eq_some'.1 h
    rw [hfcMembers_eq_some h', List.length_cons]

/-- Lines 419-421: a chain of fewer than two nodes is mixed in software. -/
theorem dspCmxHfc_lt_two (fuel : Nat) (s : Cmx k) {c : Conference k} (h : c.mlist.length < 2) :
    dspCmxHfc fuel s c = some (-1) := by
  unfold dspCmxHfc
  split
  · rfl
  · rename_i memb hm
    rw [if_pos (hfcMembers_eq_some hm ▸ h)]

/-- Lines 557-601 when the conference falls back to software (`new = -1`) from software or from a
crossconnect: at most the crossconnect of the chain before the change is released. -/
theorem removeHw_software (d hfc : Nat) (m₁ m₂ : ConfMember) {old : Int} (hold : old = -1 ∨ old = 0)
    (c : Conference k) :
    removeHw d hfc (some (m₁, m₂)) old (-1) c =
      if old = 0 then ({ c with solution := -1, hfcId := 0 }, [.cross m₁.dsp m₂.dsp false], none)
      else (c, [], none) := by
  rcases hold with rfl | rfl <;> rfl

/-- `dsp_cmx_del_conf_member` when the channel's node is found. -/
theorem dspCmxDelConfMember_eq {s : Cmx k} {d : Nat} {c : Conference k} {m : ConfMember}
    (hc : s.dspConf d = some c) (hm : c.mlist.find? (·.dsp == d) = some m) :
    dspCmxDelConfMember s d = .ok ((s.setConf c.addr { c with mlist := c.mlist.erase m }).setDsp d
      { s.dsps d with conf := none, member := none }) := by
  simp [dspCmxDelConfMember, hc, hm, List.ne_nil_of_mem (List.mem_of_find?_eq_some hm)]

/-- Lines 537-608 when the channel leaves a conference that keeps other nodes, `dsp_cmx_hfc`
returns and the bookkeeping reports no error. -/
theorem removeFromConf_of_ok {fuel : Nat} {s s₁ : Cmx k} {d : Nat} {c c₁ : Conference k} {new : Int}
    (hdel : dspCmxDelConfMember s d = .ok s₁) (hc₁ : s₁.confAt c.addr = some c₁)
    (hh : dspCmxHfc fuel s₁ c₁ = some new)
    (he : (removeHw d (s.dsps d).hfcId (twoMembers c.mlist) c.solution new c₁).2.2 = none)
    (hne : (removeHw d (s.dsps d).hfcId (twoMembers c.mlist) c.solution new c₁).1.mlist ≠ []) :
    removeFromConf fuel s d c = some
      (s₁.setConf c.addr (removeHw d (s.dsps d).hfcId (twoMembers c.mlist) c.solution new c₁).1,
        (removeHw d (s.dsps d).hfcId (twoMembers c.mlist) c.solution new c₁).2.1, none) := by
  simp only [removeFromConf, hdel, hc₁, hh, he, if_neg hne]

/-- Lines 524-611: a channel whose `conf_id` is cleared leaves its conference, and joins none. -/
theorem dspCmx_leave {tab : AudioTables} {fuel : Nat} {ok : Vmalloc} {s s₂ : Cmx k} {d : Nat}
    {c : Conference k} {ds : List Directive} (hc : s.dspConf d = some c)
    (hid : (s.dsps d).confId = 0) (hr : removeFromConf fuel s d c = some (s₂, ds, none))
    (hid₂ : (s₂.dsps d).confId = 0) :
    dspCmx tab fuel ok s d = some (s₂, ds, 0) := by
  simp [dspCmx, hc, hid, hr, addToConf, hid₂]

theorem Cmx.confAt_of_dspConf {s : Cmx k} {d : Nat} {c : Conference k} (h : s.dspConf d = some c) :
    s.confAt c.addr = some c := by
  simp only [Cmx.dspConf, Option.bind_eq_some] at h
  obtain ⟨a, -, hca⟩ := h
  rwa [Cmx.confAt_addr hca]

theorem Cmx.dspConf_setDsp_of_ne {s : Cmx k} {d e : Nat} (he : e ≠ d) (x : Dsp k) :
    (s.setDsp d x).dspConf e = s.dspConf e := by
  simp [Cmx.dspConf, Cmx.confAt, he]

/-- Writing the conference at `a` rewrites what every channel's pointer reaches. -/
theorem Cmx.dspConf_setConf_map {s : Cmx k} {a : Nat} {c' : Conference k} (hc : c'.addr = a)
    (e : Nat) :
    (s.setConf a c').dspConf e = (s.dspConf e).map fun y => if y.addr = a then c' else y := by
  simp only [Cmx.dspConf, Cmx.confAt, Cmx.setConf_confList, Cmx.setConf_dsps]
  cases (s.dsps e).conf with
  | none => rfl
  | some p =>
    simp only [Option.some_bind, List.find?_map]
    congr 2
    funext x
    by_cases hx : x.addr = a <;> simp [hx, hc]

/-- A send without tx data and tone moves only the channel's `R_rx`, for every length. -/
theorem dspCmxSend_quiet_state (tab : AudioTables) (toneCopy : Nat → List UInt8) (s : Cmx k)
    (d len : Nat) (htone : (s.dsps d).tone = false) (htx : (s.dsps d).rTx = (s.dsps d).wTx) :
    (dspCmxSend tab toneCopy s d len).2 =
      s.setDsp d { s.dsps d with rRx := (sendWindow s d len).2 } := by
  simp only [dspCmxSend, htone, htx, Bool.false_eq_true, if_false, ne_eq, not_true_eq_false,
    and_false, sendTx_eq, Ptr.off_self, Nat.zero_min, Ptr.adv_zero]

/-- Lines 967-970: a chain of one node is the single case. -/
theorem sendMix_single_snd (tab : AudioTables) {s : Cmx k} {d : Nat} {c : Conference k}
    {m : ConfMember} (hc : s.dspConf d = some c) (hm : c.mlist = [m]) :
    (sendMix tab s d).2 =
      if (s.dsps d).echo then (s.dsps d).rxBuff else fun _ => tab.silence (s.dsps d).ulaw := by
  by_cases he : (s.dsps d).echo <;> simp [sendMix, hc, hm, he]

/-- Channel `b` is the only node of its conference, with echo off, no tx data and no tone, in law
`u`: what the other party of a call leaves behind when it hangs up. -/
structure Cmx.Silenced (s : Cmx k) (b : Nat) (u : Bool) : Prop where
  alone : ∃ c m, s.dspConf b = some c ∧ c.mlist = [m] ∧ m.dsp = b
  echo : (s.dsps b).echo = false
  tone : (s.dsps b).tone = false
  tx : (s.dsps b).rTx = (s.dsps b).wTx
  ulaw : (s.dsps b).ulaw = u

/-- Such a channel is sent silence in its law, whatever its window. -/
theorem Cmx.Silenced.send_frame (tab : AudioTables) (toneCopy : Nat → List UInt8) {s : Cmx k}
    {b : Nat} {u : Bool} (h : s.Silenced b u) {n : Nat} (hn : n < cmxBuffSize k) :
    (dspCmxSend tab toneCopy s b n).1 = List.replicate n (tab.silence u) := by
  obtain ⟨c, m, hc, hm, -⟩ := h.alone
  rw [dspCmxSend_quiet tab toneCopy s b n hn h.tone h.tx, sendMix_single_snd tab hc hm, h.echo, h.ulaw]
  simp

/-- Writing another channel. -/
theorem Cmx.Silenced.setDsp {s : Cmx k} {b : Nat} {u : Bool} (h : s.Silenced b u) {d : Nat}
    (hd : d ≠ b) (x : Dsp k) : (s.setDsp d x).Silenced b u := by
  obtain ⟨al, e, t, tx, ul⟩ := h
  refine ⟨?_, ?_, ?_, ?_, ?_⟩ <;>
    simp only [Cmx.setDsp_dsps, if_neg (Ne.symm hd), Cmx.dspConf_setDsp_of_ne (Ne.symm hd)] <;>
    assumption

/-- Writing a conference with the same chain. -/
theorem Cmx.Silenced.setConf {s : Cmx k} {b : Nat} {u : Bool} (h : s.Silenced b u) {c c' : Conference k}
    (hc : s.confAt c.addr = some c) (hch : c.SameChain c') : (s.setConf c.addr c').Silenced b u := by
  obtain ⟨⟨y, m, hy, hm, hmb⟩, e, t, tx, ul⟩ := h
  refine ⟨?_, e, t, tx, ul⟩
  rw [Cmx.dspConf_setConf_map hch.1, hy, Option.map_some']
  by_cases hya : y.addr = c.addr
  · have hyc : y = c := Option.some.inj ((hya ▸ Cmx.confAt_of_dspConf hy).symm.trans hc)
    exact ⟨c', m, by simp [hya], by rw [hch.2.2, ← hyc, hm], hmb⟩
  · exact ⟨y, m, by simp [hya], hm, hmb⟩

theorem Cmx.Silenced.receive (tab : AudioTables) {s : Cmx k} {b : Nat} {u : Bool} (h : s.Silenced b u)
    (d : Nat) (data : List UInt8) : (dspCmxReceive tab s d data).Silenced b u := by
  by_cases hd : d = b
  · subst hd
    obtain ⟨L, rx, w, hx⟩ := dspCmxReceive_dsp tab s d data
    obtain ⟨x, hs | ⟨c, c', hc, hs, hch⟩, hxc, -⟩ :=
      dspCmxReceive_shape (rfl : dspCmxReceive tab s d data = _)
    all_goals
      refine ⟨?_, by simp [hx, h.echo], by simp [hx, h.tone], by simp [hx, h.tx], by simp [hx, h.ulaw]⟩
      obtain ⟨y, m, hy, hm, hmb⟩ := h.alone
    · exact ⟨y, m, by rw [hs, Cmx.dspConf_setDsp hxc, hy], hm, hmb⟩
    · rw [hy] at hc
      cases hc
      refine ⟨c', m, ?_, hch.2.2.trans hm, hmb⟩
      rw [hs, Cmx.dspConf_setDsp (by simpa using hxc), Cmx.dspConf_setConf hy hch.1]
  · obtain ⟨x, hs | ⟨c, c', hc, hs, hch⟩, -, -⟩ :=
      dspCmxReceive_shape (rfl : dspCmxReceive tab s d data = _) <;> rw [hs]
    · exact h.setDsp hd x
    · exact (h.setConf (Cmx.confAt_of_dspConf hc) hch).setDsp hd x

theorem Cmx.Silenced.send (tab : AudioTables) (toneCopy : Nat → List UInt8) {s : Cmx k} {b : Nat}
    {u : Bool} (h : s.Silenced b u) (d len : Nat) :
    (dspCmxSend tab toneCopy s d len).2.Silenced b u := by
  by_cases hd : d = b
  · subst hd
    rw [dspCmxSend_quiet_state tab toneCopy s d len h.tone h.tx]
    obtain ⟨y, m, hy, hm, hmb⟩ := h.alone
    exact ⟨⟨y, m, (Cmx.dspConf_setDsp (x := { s.dsps d with rRx := (sendWindow s d len).2 }) rfl
      d).trans hy, hm, hmb⟩, by simp [h.echo], by simp [h.tone], by simp [h.tx], by simp [h.ulaw]⟩
  · obtain ⟨rRx, rTx, wTx, e⟩ := dspCmxSend_state tab toneCopy s d len
    rw [e]
    exact h.setDsp hd _

/-- The steps after which channel `b` is still where the other party left it: a reception, a send,
or data queued for another channel. -/
def Op.leavesAlone (b : Nat) : Op → Bool
  | .receive .. => true
  | .send .. => true
  | .transmit d _ => d != b
  | .cmx .. => false

theorem Cmx.Silenced.step {tab : AudioTables} {toneCopy : Nat → List UInt8} {fuel : Nat} {s s' : Cmx k}
    {b : Nat} {u : Bool} (h : s.Silenced b u) {op : Op} (hop : op.leavesAlone b = true)
    {ds : List Directive} {r : Reply} (hs : step tab toneCopy fuel s op = some (s', ds, r)) :
    s'.Silenced b u := by
  cases op with
  | receive d data =>
    simp only [MisdnDsp.step, Option.some.injEq, Prod.mk.injEq] at hs
    exact hs.1 ▸ h.receive tab d data
  | send d len =>
    simp only [MisdnDsp.step, Option.some.injEq, Prod.mk.injEq] at hs
    exact hs.1 ▸ h.send tab toneCopy d len
  | transmit d data =>
    simp only [MisdnDsp.step, Option.some.injEq, Prod.mk.injEq] at hs
    exact hs.1 ▸ h.setDsp (by simpa [Op.leavesAlone] using hop) _
  | cmx => cases hop

theorem Trace.silenced {tab : AudioTables} {toneCopy : Nat → List UInt8} {s₀ s : Cmx k}
    {ops : List Op} {ds : List Directive} {b : Nat} {u : Bool} (h₀ : s₀.Silenced b u)
    (tr : Trace tab toneCopy s₀ ops ds s) (hops : ∀ op ∈ ops, op.leavesAlone b = true) :
    s.Silenced b u := by
  induction tr with
  | nil => exact h₀
  | snoc _ hs ih =>
    exact (ih fun op hop => hops op (List.mem_append_left _ hop)).step
      (hops _ (List.mem_append_right _ (List.mem_singleton_self _))) hs

/-- One party of a call hangs up: channel `a` of a pair is given `conf_id` 0.  The call returns,
releases at most the crossconnect of the pair, takes `a` out of the conference and leaves `b` alone
in it. -/
theorem step_hangup (tab : AudioTables) (toneCopy : Nat → List UInt8) (fuel : Nat) {s : Cmx k}
    (hu : s.NoUnits) {a b : Nat} {w : Ptr k} (hp : s.PairAt a b w) (act : Bool) (ok : Vmalloc) :
    ∃ s' ds, step tab toneCopy fuel s (.cmx a 0 act ok) = some (s', ds, .ret 0) ∧
      (∀ x ∈ ds, x = .cross a b false ∨ x = .cross b a false) ∧
      (s'.dsps a).conf = none ∧ (s'.dsps a).member = none ∧ s'.Silenced b (s.dsps b).ulaw := by
  obtain ⟨⟨c, ma, mb, hca, hcb, -, ⟨hml, rfl, rfl, hne⟩, hma, hmb⟩, ⟨-, sb⟩, -, eb⟩ := hp
  have hab : ma.dsp ≠ mb.dsp := fun h => hne (Option.some.inj (hma.symm.trans (h ▸ hmb)))
  have hmm : ma ≠ mb := fun h => hne (h ▸ rfl)
  obtain ⟨m₁, m₂, htwo, hms⟩ : ∃ m₁ m₂, c.mlist = [m₁, m₂] ∧
      ((m₁, m₂) = (ma, mb) ∨ (m₁, m₂) = (mb, ma)) := by
    rcases hml with h | h
    exacts [⟨_, _, h, .inl rfl⟩, ⟨_, _, h, .inr rfl⟩]
  -- the channel is given `conf_id` 0 and `dsp_cmx_del_conf_member` takes its node out
  set s₀ := s.setDsp ma.dsp { s.dsps ma.dsp with confId := 0, bActive := act }
  have hc₀ : s₀.dspConf ma.dsp = some c :=
    (Cmx.dspConf_setDsp (x := { s.dsps ma.dsp with confId := 0, bActive := act }) rfl _).trans hca
  have hfind : c.mlist.find? (·.dsp == ma.dsp) = some ma := by
    rcases hml with h | h <;> simp [h, Ne.symm hab]
  have herase : c.mlist.erase ma = [mb] := by
    rcases hml with h | h <;> simp [h, Ne.symm hmm]
  set s₁ := (s₀.setConf c.addr { c with mlist := c.mlist.erase ma }).setDsp ma.dsp
    { s₀.dsps ma.dsp with conf := none, member := none }
  have hc₁ : s₁.confAt c.addr = some { c with mlist := [mb] } := by
    rw [← herase]; exact Cmx.confAt_setConf (Cmx.confAt_of_dspConf hc₀) rfl
  have hb₁ : s₁.dspConf mb.dsp = some { c with mlist := [mb] } := by
    rw [Cmx.dspConf_setDsp_of_ne (Ne.symm hab), ← herase]
    exact Cmx.dspConf_setConf ((Cmx.dspConf_setDsp_of_ne (Ne.symm hab) _).trans hcb) rfl
  -- `dsp_cmx_hfc` says software, and the bookkeeping releases the crossconnect if there was one
  have hold : c.solution = -1 ∨ c.solution = 0 := hu c (Cmx.dspConf_mem hca)
  set R := removeHw ma.dsp (s₀.dsps ma.dsp).hfcId (twoMembers c.mlist) c.solution (-1)
    { c with mlist := [mb] } with hRdef
  have hR : R = if c.solution = 0 then
      ({ c with mlist := [mb], solution := -1, hfcId := 0 }, [.cross m₁.dsp m₂.dsp false], none)
      else ({ c with mlist := [mb] }, [], none) := by
    rw [hRdef, show twoMembers c.mlist = some (m₁, m₂) by rw [htwo]; rfl]
    exact removeHw_software _ _ m₁ m₂ hold _
  have hR₁ : R.1.addr = c.addr ∧ R.1.mlist = [mb] ∧ R.2.2 = none := by
    rw [hR]; split <;> exact ⟨rfl, rfl, rfl⟩
  have hr := removeFromConf_of_ok (dspCmxDelConfMember_eq hc₀ hfind) hc₁
    (dspCmxHfc_lt_two fuel s₁ (by simp)) hR₁.2.2 (by rw [hR₁.2.1]; exact List.cons_ne_nil _ _)
  have hst : step tab toneCopy fuel s (.cmx ma.dsp 0 act ok) =
      some (s₁.setConf c.addr R.1, R.2.1, .ret 0) := by
    show (dspCmx tab fuel ok s₀ ma.dsp).map _ = _
    rw [dspCmx_leave hc₀ (by simp [s₀]) hr (by simp [s₁, s₀])]
    rfl
  have hbd : (s₁.setConf c.addr R.1).dsps mb.dsp = s.dsps mb.dsp := by simp [s₁, s₀, Ne.symm hab]
  refine ⟨_, _, hst, ?_, by simp [s₁], by simp [s₁],
    ⟨⟨R.1, mb, Cmx.dspConf_setConf (c := { c with mlist := [mb] }) hb₁ hR₁.1, hR₁.2.1, rfl⟩,
      hbd ▸ eb,
      hbd ▸ sb.tone, hbd ▸ sb.tx,
      by rw [hbd]⟩⟩
  rw [hR]
  split
  · rcases hms with h | h <;> simp only [Prod.mk.injEq] at h <;> obtain ⟨rfl, rfl⟩ := h <;> simp
  · simp

/-- When one party of a call hangs up, from any reachable state, the other hears nothing more.  The
`dsp_cmx` call returns 0, releases at most the crossconnect of the pair, takes the caller out of
the conference and leaves the other party the only node of its chain; after it, whatever frames are
received and sent, and whatever data is queued for other channels, every frame sent to the other
party is silence in its law. -/
theorem reachable_hangup_silences {tab : AudioTables} {toneCopy : Nat → List UInt8} {s : Cmx k}
    (hs : Reachable tab toneCopy s) {a b : Nat} {w : Ptr k} (hp : s.PairAt a b w) (fuel : Nat)
    (act : Bool) (ok : Vmalloc) :
    ∃ s' ds, step tab toneCopy fuel s (.cmx a 0 act ok) = some (s', ds, .ret 0) ∧
      (∀ x ∈ ds, x = .cross a b false ∨ x = .cross b a false) ∧ (s'.dsps a).conf = none ∧
      (∃ c m, s'.dspConf b = some c ∧ c.mlist = [m] ∧ m.dsp = b) ∧
      ∀ ops ds' s'', (∀ op ∈ ops, op.leavesAlone b = true) → Trace tab toneCopy s' ops ds' s'' →
        ∀ n < cmxBuffSize k,
          (dspCmxSend tab toneCopy s'' b n).1 = List.replicate n (tab.silence (s.dsps b).ulaw) := by
  obtain ⟨s₀, ops₀, ds₀, hi, tr⟩ := hs
  have hu : s.NoUnits := (tr.noUnits fun c hc => by simp [hi.1] at hc).1
  obtain ⟨s', ds, hst, hds, ha, -, hsil⟩ := step_hangup tab toneCopy fuel hu hp act ok
  exact ⟨s', ds, hst, hds, ha, hsil.alone, fun _ _ _ hops tr' _ hn =>
    (tr'.silenced hsil hops).send_frame tab toneCopy hn⟩

/-- Channel 0 hangs up on channel 1. -/
theorem reachable_hangup_silences_pairedZeroOne :
    Reachable tab₀ noTone pairedZeroOne ∧ pairedZeroOne.PairAt 0 1 0 ∧
      ∃ s' ds, step tab₀ noTone 0 pairedZeroOne (.cmx 0 0 false ⟨true, true⟩) = some (s', ds, .ret 0) ∧
        (∀ x ∈ ds, x = .cross 0 1 false ∨ x = .cross 1 0 false) ∧ (s'.dsps 0).conf = none ∧
        (∃ c m, s'.dspConf 1 = some c ∧ c.mlist = [m] ∧ m.dsp = 1) ∧
        ∀ ops ds' s'', (∀ op ∈ ops, op.leavesAlone 1 = true) → Trace tab₀ noTone s' ops ds' s'' →
          ∀ n < cmxBuffSize 13, (dspCmxSend tab₀ noTone s'' 1 n).1 =
            List.replicate n (tab₀.silence (pairedZeroOne.dsps 1).ulaw) :=
  ⟨pairedZeroOne_reachable, pairedZeroOne_pairAt,
    reachable_hangup_silences pairedZeroOne_reachable pairedZeroOne_pairAt 0 false ⟨true, true⟩⟩

end MisdnDsp
