import MisdnDsp.Cmx.TxQueue
import MisdnDsp.Cmx.Flow

/-!
# Audio through the CMX: a call of two and a lone channel

What a frame from one card becomes on its way back to a card, along `dsp_cmx_receive` and
`dsp_cmx_send`.

* A conference of two relays (lines 970-997): while both members are at one write index `w`, with
  no tx data, no tone and no echo (`Cmx.PairAt`), a round in which both cards deliver a frame of
  `n` bytes and then both fetch one sends each party the other party's frame, byte for byte, and
  leaves both at `w + n` (`pairRound_relays`).  Over every run of rounds each party hears exactly
  what the other said (`pairRun_relays`).  The first reception sets `W_min` to the other member's
  `W_rx`, still at `w`; the second finds the first writer at `w + n` and sets `W_min` and `W_max`
  there, so both sends read the window `[w, w + n)` of the other member's ring.
* A channel in no conference (lines 927-966) hears its own frame back when echo is on and silence
  when it is off (`loneRound_echo`, `loneRun_echo`).

A round is the entry points called one after the other, a run of the CMX as a system
(`pairRound_trace`).
-/

namespace MisdnDsp

variable {k : Nat}

/-! ### Pointers and conferences under writes -/

theorem Cmx.confAt_setConf {s : Cmx k} {a : Nat} {c c' : Conference k} (h : s.confAt a = some c)
    (ha : c'.addr = a) : (s.setConf a c').confAt a = some c' := by
  have hca := Cmx.confAt_addr h
  have e : ((fun x : Conference k => x.addr == a) ∘ fun x => if x.addr = a then c' else x) =
      fun x => x.addr == a := by
    funext x
    by_cases hx : x.addr = a <;> simp [hx, ha]
  simp only [Cmx.confAt, Cmx.setConf_confList, List.find?_map] at h ⊢
  rw [e, h]
  simp [hca]

theorem Cmx.dspConf_setConf {s : Cmx k} {e : Nat} {c c' : Conference k} (hc : s.dspConf e = some c)
    (ha : c'.addr = c.addr) : (s.setConf c.addr c').dspConf e = some c' := by
  simp only [Cmx.dspConf, Option.bind_eq_some] at hc ⊢
  obtain ⟨a, ha', hca⟩ := hc
  obtain rfl := Cmx.confAt_addr hca
  exact ⟨_, ha', Cmx.confAt_setConf hca ha⟩

theorem Cmx.dspConf_setDsp {s : Cmx k} {d : Nat} {x : Dsp k} (hx : x.conf = (s.dsps d).conf)
    (e : Nat) : (s.setDsp d x).dspConf e = s.dspConf e := by
  by_cases he : e = d
  · subst he; simp [Cmx.dspConf, Cmx.confAt, hx]
  · simp [Cmx.dspConf, Cmx.confAt, he]

/-! ### The rings -/

/-- The copy loop of `dsp_cmx_receive` read back from where it started. -/
theorem writeRing_readBack (buf : Ptr k → UInt8) (w : Ptr k) (data : List UInt8)
    (h : data.length < cmxBuffSize k) :
    (List.range data.length).map (fun i => writeRing buf w data.length data (w.adv i)) = data := by
  apply List.ext_getElem (by simp)
  intro i h₁ _
  simp only [List.length_map, List.length_range] at h₁
  rw [List.getElem_map, List.getElem_range, writeRing_apply _ _ _ _ h.le, Ptr.off_adv _ _ (by omega),
    if_pos (by omega), List.getD_eq_getElem _ _ h₁]

/-! ### `dsp_cmx_receive` in a conference -/

/-- The loop of lines 769-776 over a chain of two, from the node `me` of the channel: the other
node's `W_rx` if it is behind the candidate. -/
theorem receiveWMin_pair (s : Cmx k) {me o : ConfMember} {ms : List ConfMember}
    (hms : ms = [me, o] ∨ ms = [o, me]) (hne : o.addr ≠ me.addr) (w : Ptr k) :
    receiveWMin s (some me.addr) w ms =
      if cmxBuffHalf k ≤ (s.dsps o.dsp).wRx.off w then (s.dsps o.dsp).wRx else w := by
  rcases hms with rfl | rfl
  · simp [receiveWMin, hne]
  · by_cases h : cmxBuffHalf k ≤ (s.dsps o.dsp).wRx.off w <;> simp [receiveWMin, hne, h]

/-- `conf->next->next` for the conference at `a`, the test of line 817: two more conferences follow
it in `Conf_list`. -/
def Cmx.mixes (s : Cmx k) (a : Nat) : Bool :=
  ((confNext a s.confList).bind fun n => confNext n.addr s.confList).isSome

/-- A frame that `dsp_cmx_receive` takes in a conference whose new `W_min` is less than half a ring
after the stored `W_max`: `W_max` becomes `W_min`, so the guard of line 804 passes, the frame is
written at `W_rx`, and lines 816-838 mix it into `conf_buff` when the conference mixes. -/
theorem dspCmxReceive_conf (tab : AudioTables) {s : Cmx k} {d : Nat} {data : List UInt8}
    {c : Conference k} (hc : s.dspConf d = some c) (h₁ : 1 ≤ data.length)
    (h₂ : data.length < cmxBuffHalf k / 4)
    (hmin : (receiveWMin s (s.dsps d).member ((s.dsps d).wRx.adv data.length) c.mlist).off c.wMax <
      cmxBuffHalf k) :
    ∃ c' L, dspCmxReceive tab s d data = (s.setConf c.addr c').setDsp d { s.dsps d with
        rxBuff := writeRing (s.dsps d).rxBuff (s.dsps d).wRx data.length data,
        wRx := (s.dsps d).wRx.adv data.length, largest := L } ∧
      c'.addr = c.addr ∧ c'.mlist = c.mlist ∧
      c'.wMin = receiveWMin s (s.dsps d).member ((s.dsps d).wRx.adv data.length) c.mlist ∧
      c'.wMax = c'.wMin ∧ c'.confBuff = if s.mixes c.addr then
        mixConfBuff (tab.decodeLaw (s.dsps d).ulaw) c.wMax c.confBuff (s.dsps d).wRx true data
      else c.confBuff := by
  have h₁' : ¬ data.length < 1 := by omega
  have h₂' : ¬ cmxBuffHalf k / 4 ≤ data.length := by omega
  simp only [dspCmxReceive, h₁', h₂', if_false, hc, raiseLargest_eq, receiveWMax_of_lt hmin,
    Ptr.off_self, Nat.zero_le, if_true]
  exact ⟨_, _, rfl, rfl, rfl, rfl, rfl, rfl⟩

/-! ### `dsp_cmx_send` without tx data -/

/-- The window of lines 885-900 when its limit is `len` after `R_rx`: it starts at `R_rx`. -/
theorem window_of_ahead (r : Ptr k) (len : Nat) :
    (if cmxBuffHalf k ≤ (cmxMask k ((r.adv len).val - r.val - len)).val
      then (cmxMask k ((r.adv len).val - len), r.adv len) else (r, cmxMask k (r.val + len))) =
      (r, r.adv len) := by
  have e : cmxMask k ((r.adv len).val - r.val - len) = 0 := by
    rw [sub_sub, Ptr.adv, cmxMask_val_sub, sub_self]; rfl
  rw [e, if_neg (by have := cmxBuffHalf_pos k; simp; omega), Ptr.adv]

theorem sendWindow_conf {s : Cmx k} {d len : Nat} {c : Conference k} (hc : s.dspConf d = some c)
    (h : c.wMin = (s.dsps d).rRx.adv len) : sendWindow s d len = ((s.dsps d).rRx, (s.dsps d).rRx.adv len) := by
  simp only [sendWindow, hc, h]
  exact window_of_ahead _ _

theorem sendWindow_alone {s : Cmx k} {d len : Nat} (hc : s.dspConf d = none)
    (h : (s.dsps d).wRx = (s.dsps d).rRx.adv len) :
    sendWindow s d len = ((s.dsps d).rRx, (s.dsps d).rRx.adv len) := by
  simp only [sendWindow, hc, h]
  exact window_of_ahead _ _

/-- `dsp_cmx_send` for a channel with no tx data and no tone: the frame is the rx side of its branch
over the window, and only `R_rx` moves, to the window's end. -/
theorem dspCmxSend_quiet (tab : AudioTables) (toneCopy : Nat → List UInt8) (s : Cmx k) (d len : Nat)
    (hlen : len < cmxBuffSize k) (htone : (s.dsps d).tone = false)
    (htx : (s.dsps d).rTx = (s.dsps d).wTx) :
    dspCmxSend tab toneCopy s d len =
      ((List.range len).map fun i => (sendMix tab s d).2 ((sendWindow s d len).1.adv i),
        s.setDsp d { s.dsps d with rRx := (sendWindow s d len).2 }) := by
  have hn := sendWindow_off s d len hlen
  simp only [dspCmxSend, htone, htx, Bool.false_eq_true, if_false, ne_eq, not_true_eq_false,
    and_false, sendTx_eq, Ptr.off_self, Nat.zero_min, List.range_zero, List.map_nil, Ptr.adv_zero,
    Nat.sub_zero, List.nil_append, sendRx_eq, hn]

/-- Lines 927-966: a channel in no conference hears its own rx ring with echo, silence without. -/
theorem sendMix_alone_snd (tab : AudioTables) {s : Cmx k} {d : Nat} (hc : s.dspConf d = none) :
    (sendMix tab s d).2 =
      if (s.dsps d).echo then (s.dsps d).rxBuff else fun _ => tab.silence (s.dsps d).ulaw := by
  by_cases he : (s.dsps d).echo <;> simp [sendMix, hc, he]

/-! ### A conference of two -/

/-- A channel that has written and read its rx ring up to `w`, with no tx data and no tone. -/
structure Dsp.SyncedAt (x : Dsp k) (w : Ptr k) : Prop where
  wRx : x.wRx = w
  rRx : x.rRx = w
  tx : x.rTx = x.wTx
  tone : x.tone = false

/-- The chain of `c` is the node `ma` of channel `a` and the node `mb` of channel `b`, in either
order, at two addresses. -/
def Conference.PairOf (c : Conference k) (ma mb : ConfMember) (a b : Nat) : Prop :=
  (c.mlist = [ma, mb] ∨ c.mlist = [mb, ma]) ∧ ma.dsp = a ∧ mb.dsp = b ∧ ma.addr ≠ mb.addr

/-- Channels `a` and `b` are the two members of a conference whose `W_max` is `w`, each with
`dsp->member` at its own node, both synced at `w` and with echo off. -/
structure Cmx.PairAt (s : Cmx k) (a b : Nat) (w : Ptr k) : Prop where
  conf : ∃ c ma mb, s.dspConf a = some c ∧ s.dspConf b = some c ∧ c.wMax = w ∧ c.PairOf ma mb a b ∧
    (s.dsps a).member = some ma.addr ∧ (s.dsps b).member = some mb.addr
  synced : (s.dsps a).SyncedAt w ∧ (s.dsps b).SyncedAt w
  echo : (s.dsps a).echo = false ∧ (s.dsps b).echo = false

theorem Conference.PairOf.symm {c : Conference k} {ma mb : ConfMember} {a b : Nat}
    (h : c.PairOf ma mb a b) : c.PairOf mb ma b a :=
  ⟨h.1.symm, h.2.2.1, h.2.1, h.2.2.2.symm⟩

/-- `other` of lines 974-976 is the other member. -/
theorem Conference.PairOf.other {c : Conference k} {ma mb m₁ m₂ : ConfMember} {a b : Nat}
    (h : c.PairOf ma mb a b) (hab : a ≠ b) (hm : c.mlist = [m₁, m₂]) :
    (if m₁.dsp = a then m₂.dsp else m₁.dsp) = b := by
  obtain ⟨hl | hl, rfl, rfl, -⟩ := h <;> rw [hm] at hl <;> simp only [List.cons.injEq] at hl <;>
    obtain ⟨rfl, rfl, -⟩ := hl
  · simp
  · simp [Ne.symm hab]

/-- What a reception that passes the guard leaves: the channel's ring holds the frame from `W_rx`
on and its `W_rx` has moved, the other channels are as they were, and every member of the
conference sees it with its new `W_min` as `W_min` and `W_max`. -/
theorem dspCmxReceive_conf_obs (tab : AudioTables) {s : Cmx k} {d : Nat} {data : List UInt8}
    {c : Conference k} (hc : s.dspConf d = some c) (h₁ : 1 ≤ data.length)
    (h₂ : data.length < cmxBuffHalf k / 4)
    (hmin : (receiveWMin s (s.dsps d).member ((s.dsps d).wRx.adv data.length) c.mlist).off c.wMax <
      cmxBuffHalf k) :
    ∃ c' L, (dspCmxReceive tab s d data).dsps d = { s.dsps d with
        rxBuff := writeRing (s.dsps d).rxBuff (s.dsps d).wRx data.length data,
        wRx := (s.dsps d).wRx.adv data.length, largest := L } ∧
      (∀ e, e ≠ d → (dspCmxReceive tab s d data).dsps e = s.dsps e) ∧
      (∀ e, s.dspConf e = some c → (dspCmxReceive tab s d data).dspConf e = some c') ∧
      c'.mlist = c.mlist ∧
      c'.wMin = receiveWMin s (s.dsps d).member ((s.dsps d).wRx.adv data.length) c.mlist ∧
      c'.wMax = c'.wMin := by
  obtain ⟨c', L, e, ha, hm, hmin', hmax', -⟩ := dspCmxReceive_conf tab hc h₁ h₂ hmin
  refine ⟨c', L, by simp [e], fun x hx => by simp [e, hx], fun x hx => ?_, hm, hmin', hmax'⟩
  rw [e, Cmx.dspConf_setDsp]
  exacts [Cmx.dspConf_setConf hx ha, rfl]

/-- What a send without tx data or tone leaves: only the channel's `R_rx` has moved. -/
theorem dspCmxSend_quiet_obs (tab : AudioTables) (toneCopy : Nat → List UInt8) (s : Cmx k) (d len : Nat)
    (hlen : len < cmxBuffSize k) (htone : (s.dsps d).tone = false)
    (htx : (s.dsps d).rTx = (s.dsps d).wTx) :
    ((dspCmxSend tab toneCopy s d len).2.dsps d) = { s.dsps d with rRx := (sendWindow s d len).2 } ∧
      (∀ e, e ≠ d → (dspCmxSend tab toneCopy s d len).2.dsps e = s.dsps e) ∧
      ∀ e, (dspCmxSend tab toneCopy s d len).2.dspConf e = s.dspConf e := by
  rw [dspCmxSend_quiet tab toneCopy s d len hlen htone htx]
  exact ⟨by simp, fun e he => by simp [he], fun e => by rw [Cmx.dspConf_setDsp]; rfl⟩

/-- Lines 994-997 without tx data: a member of a conference of two whose window starts at `R_rx`
sends the other member's rx bytes from `R_rx` on. -/
theorem dspCmxSend_pair_frame (tab : AudioTables) (toneCopy : Nat → List UInt8) {s : Cmx k}
    {a b len : Nat} {c : Conference k} {ma mb : ConfMember} (hc : s.dspConf a = some c)
    (hp : c.PairOf ma mb a b) (hab : a ≠ b) (hlen : len < cmxBuffSize k)
    (htone : (s.dsps a).tone = false) (htx : (s.dsps a).rTx = (s.dsps a).wTx)
    (hecho : (s.dsps a).echo = false) (hw : c.wMin = (s.dsps a).rRx.adv len) :
    (dspCmxSend tab toneCopy s a len).1 =
      (List.range len).map fun i => (s.dsps b).rxBuff ((s.dsps a).rRx.adv i) := by
  obtain ⟨m₁, m₂, hm⟩ : ∃ m₁ m₂, c.mlist = [m₁, m₂] := by
    rcases hp.1 with h | h <;> exact ⟨_, _, h⟩
  rw [dspCmxSend_quiet tab toneCopy s a len hlen htone htx, sendWindow_conf hc hw,
    sendMix_pair_snd tab s a hc hm hecho, hp.other hab hm]

/-- A pointer `n` ahead, `0 < n`, is seen from it as `CMX_BUFF_SIZE - n` behind: "lower" in the test
of line 774 when `n` is at most half a ring. -/
theorem Ptr.off_adv_ahead (w : Ptr k) {n : Nat} (h₀ : 0 < n) (h : n ≤ cmxBuffSize k) :
    w.off (w.adv n) = cmxBuffSize k - n := by
  have := Ptr.off_adv_adv w 0 n (by omega) h
  simp only [Ptr.adv_zero] at this
  omega

/-- One round of a call of `a` and `b`: both cards deliver a frame, `a`'s first, then both fetch a
frame as long as the one they delivered; the frames sent to `a` and to `b`, and the state after. -/
def pairRound (tab : AudioTables) (toneCopy : Nat → List UInt8) (s : Cmx k) (a b : Nat)
    (fa fb : List UInt8) : List UInt8 × List UInt8 × Cmx k :=
  let s₂ := dspCmxReceive tab (dspCmxReceive tab s a fa) b fb
  let ra := dspCmxSend tab toneCopy s₂ a fa.length
  let rb := dspCmxSend tab toneCopy ra.2 b fb.length
  (ra.1, rb.1, rb.2)

/-- In a conference of two synced at `w`, a round with frames of one length `n` that fit sends `a`
the frame of `b` and `b` the frame of `a`, and leaves the two synced at `w + n`. -/
theorem pairRound_relays (tab : AudioTables) (toneCopy : Nat → List UInt8) {s : Cmx k} {a b : Nat}
    {w : Ptr k} {fa fb : List UInt8} (hs : s.PairAt a b w) (h₁ : 1 ≤ fa.length)
    (h₂ : fa.length < cmxBuffHalf k / 4) (hfb : fb.length = fa.length) :
    (pairRound tab toneCopy s a b fa fb).1 = fb ∧ (pairRound tab toneCopy s a b fa fb).2.1 = fa ∧
      (pairRound tab toneCopy s a b fa fb).2.2.PairAt a b (w.adv fa.length) := by
  obtain ⟨⟨c, ma, mb, hca, hcb, hwmax, hp, hma, hmb⟩, ⟨sa, sb⟩, ea, eb⟩ := hs
  have hab : a ≠ b := by rintro rfl; exact hp.2.2.2 (Option.some.inj (hma.symm.trans hmb))
  have hsize := cmxBuffSize_eq k
  have hn : fa.length < cmxBuffSize k := by omega
  dsimp only [pairRound]
  -- `a` receives: `b` is still at `w`, behind `w + n`, so `W_min` and `W_max` stay at `w`
  have hmin₁ : receiveWMin s (s.dsps a).member ((s.dsps a).wRx.adv fa.length) c.mlist = w := by
    rw [hma, receiveWMin_pair s hp.1 hp.2.2.2.symm, hp.2.2.1, sb.wRx, sa.wRx,
      if_pos (by rw [Ptr.off_adv_ahead w (by omega) hn.le]; omega)]
  obtain ⟨c₁, L₁, hd₁, ho₁, hconf₁, hm₁, hmin₁', hmax₁⟩ := dspCmxReceive_conf_obs tab hca h₁ h₂
    (by rw [hmin₁, hwmax, Ptr.off_self]; exact cmxBuffHalf_pos k)
  rw [hmin₁] at hmin₁'
  set s₁ := dspCmxReceive tab s a fa
  have hb₁ : s₁.dsps b = s.dsps b := ho₁ b (Ne.symm hab)
  -- `b` receives: `a` is at `w + n` like `b`'s new pointer, so `W_min` and `W_max` go there
  have hmin₂ : receiveWMin s₁ (s₁.dsps b).member ((s₁.dsps b).wRx.adv fb.length) c₁.mlist =
      w.adv fa.length := by
    rw [hb₁, hmb, hm₁, receiveWMin_pair s₁ hp.symm.1 hp.2.2.2, hp.2.1, hd₁, sb.wRx, hfb]
    simp [sa.wRx, Ptr.off_self, cmxBuffHalf_pos]
  obtain ⟨c₂, L₂, hd₂, ho₂, hconf₂, hm₂, hmin₂', hmax₂⟩ := dspCmxReceive_conf_obs tab
    (hconf₁ b hcb) (hfb ▸ h₁) (hfb ▸ h₂)
    (by rw [hmin₂, hmax₁, hmin₁', Ptr.off_adv _ _ hn]; omega)
  rw [hmin₂] at hmin₂'
  set s₂ := dspCmxReceive tab s₁ b fb
  have ha₂ : s₂.dsps a = { s.dsps a with
      rxBuff := writeRing (s.dsps a).rxBuff w fa.length fa, wRx := w.adv fa.length, largest := L₁ } := by
    rw [ho₂ a hab, hd₁, sa.wRx]
  have hb₂ : s₂.dsps b = { s.dsps b with
      rxBuff := writeRing (s.dsps b).rxBuff w fb.length fb, wRx := w.adv fa.length, largest := L₂ } := by
    rw [hd₂, hb₁, sb.wRx, hfb]
  have hp₂ : c₂.PairOf ma mb a b := by unfold Conference.PairOf; rw [hm₂, hm₁]; exact hp
  have hc₂a : s₂.dspConf a = some c₂ := hconf₂ a (hconf₁ a hca)
  have hc₂b : s₂.dspConf b = some c₂ := hconf₂ b (hconf₁ b hcb)
  -- `a` sends the window `[w, w + n)` of `b`'s ring
  have hwa : c₂.wMin = (s₂.dsps a).rRx.adv fa.length := by rw [hmin₂', ha₂, sa.rRx]
  obtain ⟨hsa₃, hso₃, hsc₃⟩ := dspCmxSend_quiet_obs tab toneCopy s₂ a fa.length hn
    (by rw [ha₂]; exact sa.tone) (by rw [ha₂]; exact sa.tx)
  have hfa := dspCmxSend_pair_frame tab toneCopy hc₂a hp₂ hab hn (by rw [ha₂]; exact sa.tone)
    (by rw [ha₂]; exact sa.tx) (by rw [ha₂]; exact ea) hwa
  rw [sendWindow_conf hc₂a hwa] at hsa₃
  set s₃ := (dspCmxSend tab toneCopy s₂ a fa.length).2
  -- `b` sends the window `[w, w + n)` of `a`'s ring
  have hb₃ : s₃.dsps b = s₂.dsps b := hso₃ b (Ne.symm hab)
  have hwb : c₂.wMin = (s₃.dsps b).rRx.adv fb.length := by rw [hmin₂', hb₃, hb₂, sb.rRx, hfb]
  have hc₃b : s₃.dspConf b = some c₂ := (hsc₃ b).trans hc₂b
  obtain ⟨hsb₄, hso₄, hsc₄⟩ := dspCmxSend_quiet_obs tab toneCopy s₃ b fb.length (hfb ▸ hn)
    (by rw [hb₃, hb₂]; exact sb.tone) (by rw [hb₃, hb₂]; exact sb.tx)
  have hfb' := dspCmxSend_pair_frame tab toneCopy hc₃b hp₂.symm (Ne.symm hab) (hfb ▸ hn)
    (by rw [hb₃, hb₂]; exact sb.tone) (by rw [hb₃, hb₂]; exact sb.tx) (by rw [hb₃, hb₂]; exact eb) hwb
  rw [sendWindow_conf hc₃b hwb] at hsb₄
  have ha₄ : (dspCmxSend tab toneCopy s₃ b fb.length).2.dsps a = s₃.dsps a := hso₄ a hab
  refine ⟨?_, ?_, ⟨c₂, ma, mb, ?_, ?_, hmax₂.trans hmin₂', hp₂, ?_, ?_⟩, ⟨?_, ?_⟩, ?_, ?_⟩
  · rw [hfa, hb₂, ha₂, sa.rRx, ← hfb]
    exact writeRing_readBack _ _ _ (hfb ▸ hn)
  · rw [hfb', hsa₃, hb₃, hb₂, ha₂, sb.rRx, hfb]
    exact writeRing_readBack _ _ _ hn
  · rw [hsc₄, hsc₃, hc₂a]
  · rw [hsc₄, hc₃b]
  · rw [ha₄, hsa₃, ha₂]; exact hma
  · rw [hsb₄, hb₃, hb₂]; exact hmb
  · rw [ha₄, hsa₃, ha₂, sa.rRx]; exact ⟨rfl, rfl, sa.tx, sa.tone⟩
  · rw [hsb₄, hb₃, hb₂, sb.rRx, hfb]; exact ⟨rfl, rfl, sb.tx, sb.tone⟩
  · rw [ha₄, hsa₃, ha₂]; exact ea
  · rw [hsb₄, hb₃, hb₂]; exact eb

/-- Rounds of a call, one pair of frames each: the frames sent to `a` and to `b` in each round, and
the state after. -/
def pairRun (tab : AudioTables) (toneCopy : Nat → List UInt8) (s : Cmx k) (a b : Nat) :
    List (List UInt8 × List UInt8) → List (List UInt8 × List UInt8) × Cmx k
  | [] => ([], s)
  | (fa, fb) :: fs =>
    let r := pairRound tab toneCopy s a b fa fb
    let rest := pairRun tab toneCopy r.2.2 a b fs
    ((r.1, r.2.1) :: rest.1, rest.2)

/-- Over every run of rounds of a call synced at `w`, with frames of one length per round that fit,
`a` is sent exactly the frames of `b` and `b` exactly those of `a`, round by round, and the two end
synced past all of them. -/
theorem pairRun_relays {tab : AudioTables} {toneCopy : Nat → List UInt8} {s : Cmx k} {a b : Nat}
    {w : Ptr k} (fs : List (List UInt8 × List UInt8)) (hs : s.PairAt a b w)
    (hf : ∀ f ∈ fs, 1 ≤ f.1.length ∧ f.1.length < cmxBuffHalf k / 4 ∧ f.2.length = f.1.length) :
    (pairRun tab toneCopy s a b fs).1 = fs.map Prod.swap ∧
      (pairRun tab toneCopy s a b fs).2.PairAt a b (w.adv (fs.map (·.1.length)).sum) := by
  induction fs generalizing s w with
  | nil => simpa [pairRun] using hs
  | cons f fs ih =>
    obtain ⟨fa, fb⟩ := f
    obtain ⟨h₁, h₂, hfb⟩ := hf (fa, fb) (.head _)
    obtain ⟨ha, hb, hs'⟩ := pairRound_relays tab toneCopy hs h₁ h₂ hfb
    obtain ⟨e, hs''⟩ := ih hs' fun g hg => hf g (.tail _ hg)
    refine ⟨by simp only [pairRun, ha, hb, e, List.map_cons, Prod.swap], ?_⟩
    simpa only [pairRun, List.map_cons, List.sum_cons, Ptr.adv_adv] using hs''

/-- Channels 0 and 1 of a fresh registry join conference 1. -/
def pairedZeroOne : Cmx 13 :=
  ((run tab₀ noTone 0 (Cmx.zero fun _ => 0)
    [.cmx 0 1 true ⟨true, true⟩, .cmx 1 1 true ⟨true, true⟩]).map (·.1)).getD (Cmx.zero fun _ => 0)

/-- The two joins leave both channels synced at 0, at the nodes 2 and 3 of conference 1. -/
theorem pairedZeroOne_pairAt : pairedZeroOne.PairAt 0 1 0 :=
  ⟨⟨_, ⟨2, 0⟩, ⟨3, 1⟩, rfl, rfl, rfl, ⟨.inl rfl, rfl, rfl, by decide⟩, rfl, rfl⟩,
    ⟨⟨rfl, rfl, rfl, rfl⟩, ⟨rfl, rfl, rfl, rfl⟩⟩, rfl, rfl⟩

/-- Two rounds of a call: two bytes each way, then one. -/
def callFrames : List (List UInt8 × List UInt8) := [([1, 2], [3, 4]), ([5], [6])]

theorem pairRun_relays_pairedZeroOne :
    pairedZeroOne.PairAt 0 1 0 ∧
      (∀ f ∈ callFrames, 1 ≤ f.1.length ∧ f.1.length < cmxBuffHalf 13 / 4 ∧ f.2.length = f.1.length) ∧
      ((pairRun tab₀ noTone pairedZeroOne 0 1 callFrames).1 = callFrames.map Prod.swap ∧
        (pairRun tab₀ noTone pairedZeroOne 0 1 callFrames).2.PairAt 0 1
          ((0 : Ptr 13).adv (callFrames.map (·.1.length)).sum)) :=
  have hf : ∀ f ∈ callFrames,
      1 ≤ f.1.length ∧ f.1.length < cmxBuffHalf 13 / 4 ∧ f.2.length = f.1.length := by decide
  ⟨pairedZeroOne_pairAt, hf, pairRun_relays _ pairedZeroOne_pairAt hf⟩

/-- A round is a run of the CMX: both receptions, then both sends. -/
theorem pairRound_trace (tab : AudioTables) (toneCopy : Nat → List UInt8) (s : Cmx k) (a b : Nat)
    (fa fb : List UInt8) :
    Trace tab toneCopy s [.receive a fa, .receive b fb, .send a fa.length, .send b fb.length] []
      (pairRound tab toneCopy s a b fa fb).2.2 :=
  Trace.of_run (show run tab toneCopy 0 s _ = some (_, [], _) from rfl)

/-! ### A lone channel -/

/-- One round of a channel: its card delivers a frame, then fetches one as long; the frame sent and
the state after. -/
def loneRound (tab : AudioTables) (toneCopy : Nat → List UInt8) (s : Cmx k) (d : Nat)
    (f : List UInt8) : List UInt8 × Cmx k :=
  dspCmxSend tab toneCopy (dspCmxReceive tab s d f) d f.length

/-- A channel in no conference, synced at `w`, is sent back the frame it delivered when echo is
on, and silence in its law when echo is off; it ends synced at `w + n`, still alone. -/
theorem loneRound_echo (tab : AudioTables) (toneCopy : Nat → List UInt8) {s : Cmx k} {d : Nat}
    {w : Ptr k} {f : List UInt8} (hc : s.dspConf d = none) (hs : (s.dsps d).SyncedAt w)
    (h₁ : 1 ≤ f.length) (h₂ : f.length < cmxBuffHalf k / 4) :
    (loneRound tab toneCopy s d f).1 =
        (if (s.dsps d).echo then f else List.replicate f.length (tab.silence (s.dsps d).ulaw)) ∧
      (loneRound tab toneCopy s d f).2.dspConf d = none ∧
      ((loneRound tab toneCopy s d f).2.dsps d).SyncedAt (w.adv f.length) ∧
      ((loneRound tab toneCopy s d f).2.dsps d).echo = (s.dsps d).echo ∧
      ((loneRound tab toneCopy s d f).2.dsps d).ulaw = (s.dsps d).ulaw := by
  have hn : f.length < cmxBuffSize k := by have := cmxBuffSize_eq k; omega
  have e₁ := dspCmxReceive_alone tab s d f hc h₁ h₂
  set s₁ := dspCmxReceive tab s d f
  have hd₁ : s₁.dsps d = { s.dsps d with
      largest := max (s.dsps d).largest (2 * f.length),
      rxBuff := writeRing (s.dsps d).rxBuff w f.length f, wRx := w.adv f.length } := by
    rw [e₁, hs.wRx]; simp
  have hc₁ : s₁.dspConf d = none := by rw [e₁, Cmx.dspConf_setDsp, hc]; rfl
  have hw₁ : (s₁.dsps d).wRx = (s₁.dsps d).rRx.adv f.length := by rw [hd₁, hs.rRx]
  have htone : (s₁.dsps d).tone = false := by rw [hd₁]; exact hs.tone
  have htx : (s₁.dsps d).rTx = (s₁.dsps d).wTx := by rw [hd₁]; exact hs.tx
  unfold loneRound
  rw [dspCmxSend_quiet tab toneCopy s₁ d f.length hn htone htx, sendWindow_alone hc₁ hw₁,
    sendMix_alone_snd tab hc₁]
  refine ⟨?_, by rw [Cmx.dspConf_setDsp, hc₁]; rfl, ?_, by simp [hd₁], by simp [hd₁]⟩
  · rw [hd₁, hs.rRx]
    by_cases he : (s.dsps d).echo
    · simpa [he] using writeRing_readBack (s.dsps d).rxBuff w f hn
    · simp [he]
  · simp only [Cmx.setDsp_dsps, if_true, hd₁, hs.rRx]
    exact ⟨rfl, rfl, hs.tx, hs.tone⟩

/-- Rounds of a lone channel, one frame each: the frames sent, and the state after. -/
def loneRun (tab : AudioTables) (toneCopy : Nat → List UInt8) (s : Cmx k) (d : Nat) :
    List (List UInt8) → List (List UInt8) × Cmx k
  | [] => ([], s)
  | f :: fs =>
    let r := loneRound tab toneCopy s d f
    let rest := loneRun tab toneCopy r.2 d fs
    (r.1 :: rest.1, rest.2)

/-- Over every run of rounds of a channel in no conference, synced at `w`, with frames that fit, the
channel is sent back each of its frames when echo is on, and as much silence when it is off. -/
theorem loneRun_echo {tab : AudioTables} {toneCopy : Nat → List UInt8} {s : Cmx k} {d : Nat}
    {w : Ptr k} (fs : List (List UInt8)) (hc : s.dspConf d = none) (hs : (s.dsps d).SyncedAt w)
    (hf : ∀ f ∈ fs, 1 ≤ f.length ∧ f.length < cmxBuffHalf k / 4) :
    (loneRun tab toneCopy s d fs).1 = fs.map fun f =>
      if (s.dsps d).echo then f else List.replicate f.length (tab.silence (s.dsps d).ulaw) := by
  induction fs generalizing s w with
  | nil => rfl
  | cons f fs ih =>
    obtain ⟨h₁, h₂⟩ := hf f (.head _)
    obtain ⟨e, hc', hs', he, hu⟩ := loneRound_echo tab toneCopy hc hs h₁ h₂
    have := ih hc' hs' fun g hg => hf g (.tail _ hg)
    simp only [loneRun, e, this, he, hu, List.map_cons]

/-- Two frames of a lone channel. -/
def loneFrames : List (List UInt8) := [[1, 2], [3]]

theorem loneRun_echo_zero :
    (Cmx.zero fun _ => 0 : Cmx 13).dspConf 0 = none ∧ ((Cmx.zero fun _ => 0 : Cmx 13).dsps 0).SyncedAt 0 ∧
      (∀ f ∈ loneFrames, 1 ≤ f.length ∧ f.length < cmxBuffHalf 13 / 4) ∧
      (loneRun tab₀ noTone (Cmx.zero fun _ => 0 : Cmx 13) 0 loneFrames).1 = loneFrames.map fun f =>
        if ((Cmx.zero fun _ => 0 : Cmx 13).dsps 0).echo then f
        else List.replicate f.length (tab₀.silence ((Cmx.zero fun _ => 0 : Cmx 13).dsps 0).ulaw) :=
  have hf : ∀ f ∈ loneFrames, 1 ≤ f.length ∧ f.length < cmxBuffHalf 13 / 4 := by decide
  ⟨rfl, ⟨rfl, rfl, rfl, rfl⟩, hf, loneRun_echo _ rfl ⟨rfl, rfl, rfl, rfl⟩ hf⟩

end MisdnDsp
