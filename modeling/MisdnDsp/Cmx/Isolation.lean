import MisdnDsp.Cmx.Call
import MisdnDsp.Cmx.Mixing

/-!
# A call is isolated from the other channels

While a call is in progress (`Cmx.PairAt`), the other channels go on receiving, sending and
queuing data, other calls among them.  From any reachable state, over every interleaving of the
call's rounds with such steps, each party of the call is sent exactly the other party's frames, and
the call stays in progress (`reachable_call_isolated`).

* `Cmx.Wf.mem_of_dspConf`: a channel's conference holds a node of the channel, so no channel but
  the two parties points at the conference of a pair;
* `Cmx.PairAt.otherStep`: a step of another channel leaves what the call reads, the two parties and
  their conference, as it was: `dsp_cmx_receive` rewrites only the conference of the receiving
  channel, and `dsp_cmx_send` and `dsp_cmx_transmit` only the channel itself.
-/

namespace MisdnDsp

variable {k : Nat}

/-- A step of the audio of a channel that is neither `a` nor `b`. -/
def Op.otherAudio (a b : Nat) : Op → Bool
  | .receive d _ => d != a && d != b
  | .send d _ => d != a && d != b
  | .transmit d _ => d != a && d != b
  | .cmx .. => false

/-- What happens next to a call: one of its rounds, with the frames both cards deliver, or a step of
the CMX. -/
inductive CallEvent where
  | round (fa fb : List UInt8)
  | other (op : Op)
deriving DecidableEq, Repr

/-- The events a call of `a` and `b` can be run with: rounds of frames of one length that fit, and
steps of the other channels' audio. -/
def CallEvent.fits (k a b : Nat) : CallEvent → Bool
  | .round fa fb => 1 ≤ fa.length && fa.length < cmxBuffHalf k / 4 && fb.length == fa.length
  | .other op => op.otherAudio a b

/-- What the parties are sent in an event: `a` and `b` in a round, nothing otherwise. -/
def CallEvent.heard : CallEvent → Option (List UInt8 × List UInt8)
  | .round fa fb => some (fb, fa)
  | .other _ => none

/-- The call's rounds interleaved with other steps: the frames `a` and `b` are sent in each round,
and the state after. -/
def callRun (tab : AudioTables) (toneCopy : Nat → List UInt8) (s : Cmx k) (a b : Nat) :
    List CallEvent → List (List UInt8 × List UInt8) × Cmx k
  | [] => ([], s)
  | .round fa fb :: es =>
    let r := pairRound tab toneCopy s a b fa fb
    let rest := callRun tab toneCopy r.2.2 a b es
    ((r.1, r.2.1) :: rest.1, rest.2)
  | .other op :: es => callRun tab toneCopy (((step tab toneCopy 0 s op).map (·.1)).getD s) a b es

/-! ### Nobody else points at a call's conference -/

/-- The conference a channel points at holds a node of the channel. -/
theorem Cmx.Wf.mem_of_dspConf {s : Cmx k} (h : s.Wf) {d : Nat} {c : Conference k}
    (hc : s.dspConf d = some c) : ∃ m ∈ c.mlist, m.dsp = d := by
  obtain ⟨c', hc', ha, m, hm, hmd⟩ := h.conf_mem d _ (Cmx.dspConf_conf hc)
  exact ⟨m, h.eq_of_addr hc' (Cmx.dspConf_mem hc) ha ▸ hm, hmd⟩

/-- A channel that is neither party of a pair is in another conference, or in none. -/
theorem Cmx.PairAt.addr_ne {s : Cmx k} (hw : s.Wf) {a b : Nat} {w : Ptr k} (hp : s.PairAt a b w)
    {d : Nat} (hda : d ≠ a) (hdb : d ≠ b) {c c' : Conference k} (hc : s.dspConf a = some c)
    (hc' : s.dspConf d = some c') : c'.addr ≠ c.addr := by
  intro he
  obtain ⟨C, ma, mb, hC, -, -, ⟨hml, rfl, rfl, -⟩, -⟩ := hp.conf
  obtain rfl : C = c := Option.some.inj (hC.symm.trans hc)
  have e : c' = C := Option.some.inj
    ((he ▸ Cmx.confAt_of_dspConf hc').symm.trans (Cmx.confAt_of_dspConf hC))
  obtain ⟨m, hm, rfl⟩ := hw.mem_of_dspConf hc'
  rw [e] at hm
  rcases hml with h | h <;> rw [h] at hm <;> simp only [List.mem_cons, List.mem_singleton,
    List.not_mem_nil, or_false] at hm <;> rcases hm with rfl | rfl <;> simp_all

/-! ### A step of another channel -/

/-- The call reads only its two parties and their conference. -/
theorem Cmx.PairAt.congr {s s' : Cmx k} {a b : Nat} {w : Ptr k} (hp : s.PairAt a b w)
    (ha : s'.dsps a = s.dsps a) (hb : s'.dsps b = s.dsps b) (hca : s'.dspConf a = s.dspConf a)
    (hcb : s'.dspConf b = s.dspConf b) : s'.PairAt a b w := by
  obtain ⟨hc, hs, he⟩ := hp
  rw [← ha, ← hb, ← hca, ← hcb] at *
  exact ⟨hc, hs, he⟩

/-- `dsp_cmx_receive` on another channel leaves every pointer of the call where it was. -/
theorem dspCmxReceive_dspConf_of_ne (tab : AudioTables) {s : Cmx k} {d e : Nat}
    (data : List UInt8) (he : e ≠ d)
    (hne : ∀ c c', s.dspConf e = some c → s.dspConf d = some c' → c'.addr ≠ c.addr) :
    (dspCmxReceive tab s d data).dspConf e = s.dspConf e := by
  obtain ⟨x, hs | ⟨c', c'', hc', hs, hch⟩, -, -⟩ :=
    dspCmxReceive_shape (rfl : dspCmxReceive tab s d data = _) <;> rw [hs, Cmx.dspConf_setDsp_of_ne he]
  rw [Cmx.dspConf_setConf_map hch.1]
  cases hc : s.dspConf e with
  | none => rfl
  | some c => simp [Ne.symm (hne c c' hc hc')]

theorem Cmx.PairAt.otherStep {tab : AudioTables} {toneCopy : Nat → List UInt8} {fuel : Nat}
    {s s' : Cmx k} (hw : s.Wf) {a b : Nat} {w : Ptr k} (hp : s.PairAt a b w) {op : Op}
    (hop : op.otherAudio a b = true) {ds : List Directive}
    {r : Reply} (hs : step tab toneCopy fuel s op = some (s', ds, r)) : s'.PairAt a b w := by
  obtain ⟨C, ma, mb, hca, hcb, -⟩ := hp.conf
  cases op with
  | receive d data =>
    simp only [Op.otherAudio, Bool.and_eq_true, bne_iff_ne, ne_eq] at hop
    simp only [step, Option.some.injEq, Prod.mk.injEq] at hs
    rw [← hs.1]
    refine hp.congr (dspCmxReceive_dsps_of_ne tab s (Ne.symm hop.1))
      (dspCmxReceive_dsps_of_ne tab s (Ne.symm hop.2)) ?_ ?_ <;>
      refine dspCmxReceive_dspConf_of_ne tab data (by omega) fun c c' hc hc' => ?_
    · exact hp.addr_ne hw hop.1 hop.2 hc hc'
    · exact hp.addr_ne hw hop.1 hop.2 (hca.trans (hcb.symm.trans hc)) hc'
  | send d len =>
    simp only [Op.otherAudio, Bool.and_eq_true, bne_iff_ne, ne_eq] at hop
    simp only [step, Option.some.injEq, Prod.mk.injEq] at hs
    obtain ⟨rRx, rTx, wTx, e⟩ := dspCmxSend_state tab toneCopy s d len
    rw [← hs.1, e]
    exact hp.congr (by simp [Ne.symm hop.1]) (by simp [Ne.symm hop.2])
      (Cmx.dspConf_setDsp_of_ne (Ne.symm hop.1) _) (Cmx.dspConf_setDsp_of_ne (Ne.symm hop.2) _)
  | transmit d data =>
    simp only [Op.otherAudio, Bool.and_eq_true, bne_iff_ne, ne_eq] at hop
    simp only [step, Option.some.injEq, Prod.mk.injEq] at hs
    rw [← hs.1]
    exact hp.congr (by simp [Ne.symm hop.1]) (by simp [Ne.symm hop.2])
      (Cmx.dspConf_setDsp_of_ne (Ne.symm hop.1) _) (Cmx.dspConf_setDsp_of_ne (Ne.symm hop.2) _)
  | cmx => cases hop

/-- A step of another channel's audio always returns, and issues no directive. -/
theorem step_otherAudio (tab : AudioTables) (toneCopy : Nat → List UInt8) (fuel : Nat) (s : Cmx k)
    {a b : Nat} {op : Op} (hop : op.otherAudio a b = true) :
    ∃ s' r, step tab toneCopy fuel s op = some (s', [], r) := by
  cases op with
  | cmx => cases hop
  | _ => exact ⟨_, _, rfl⟩

/-! ### Every interleaving -/

/-- The run of events, from a well formed state: what one event does to the call (a round relays
and advances the pair, a step of another channel leaves it), by induction over the events. -/
theorem callRun_relays (tab : AudioTables) (toneCopy : Nat → List UInt8) {a b : Nat} :
    ∀ (es : List CallEvent) {s : Cmx k} {w : Ptr k}, s.Wf → s.PairAt a b w →
      (∀ e ∈ es, e.fits k a b = true) →
      (callRun tab toneCopy s a b es).1 = es.filterMap CallEvent.heard ∧
        ∃ w', (callRun tab toneCopy s a b es).2.PairAt a b w'
  | [], _, w, _, hp, _ => ⟨rfl, w, hp⟩
  | .round fa fb :: es, s, _, hw, hp, hes => by
    have hf := hes _ (.head _)
    simp only [CallEvent.fits, Bool.and_eq_true, decide_eq_true_eq, beq_iff_eq] at hf
    obtain ⟨e₁, e₂, hp'⟩ := pairRound_relays tab toneCopy hp hf.1.1 hf.1.2 hf.2
    obtain ⟨ih₁, ih₂⟩ := callRun_relays tab toneCopy es
      ((pairRound_trace tab toneCopy s a b fa fb).wf hw) hp' fun e he => hes e (.tail _ he)
    simp only [callRun, List.filterMap_cons, CallEvent.heard, e₁, e₂, ih₁]
    exact ⟨trivial, ih₂⟩
  | .other op :: es, s, _, hw, hp, hes => by
    have hop : op.otherAudio a b = true := hes _ (.head _)
    obtain ⟨s', r, hst⟩ := step_otherAudio tab toneCopy 0 s hop
    simp only [callRun, hst, Option.map_some', Option.getD_some, List.filterMap_cons,
      CallEvent.heard]
    exact callRun_relays tab toneCopy es (step_wf hw hst) (hp.otherStep hw hop hst)
      fun e he => hes e (.tail _ he)

/-- From any reachable state, over every interleaving of a call's rounds with the receptions, sends
and queued data of the other channels (other calls among them), each party of the call is sent
exactly the other party's frame of every round, and the call is still in progress after. -/
theorem reachable_call_isolated {tab : AudioTables} {toneCopy : Nat → List UInt8} {s : Cmx k}
    (hs : Reachable tab toneCopy s) {a b : Nat} {w : Ptr k} (hp : s.PairAt a b w)
    (es : List CallEvent) (hes : ∀ e ∈ es, e.fits k a b = true) :
    (callRun tab toneCopy s a b es).1 = es.filterMap CallEvent.heard ∧
      ∃ w', (callRun tab toneCopy s a b es).2.PairAt a b w' :=
  callRun_relays tab toneCopy es hs.wf hp hes

/-- Two calls at once: channels 0 and 1 in conference 1, channels 2 and 3 in conference 2. -/
def twoCalls : Cmx 13 :=
  ((run tab₀ noTone 0 (Cmx.zero fun _ => 0)
    [.cmx 0 1 true ⟨true, true⟩, .cmx 1 1 true ⟨true, true⟩, .cmx 2 2 true ⟨true, true⟩,
      .cmx 3 2 true ⟨true, true⟩]).map (·.1)).getD (Cmx.zero fun _ => 0)

/-- Rounds of the call of 0 and 1, between which the call of 2 and 3 has its own round. -/
def twoCallEvents : List CallEvent :=
  [.round [1] [2], .other (.receive 2 [5]), .other (.receive 3 [6]), .other (.send 2 1),
    .other (.send 3 1), .round [3] [4]]

theorem reachable_call_isolated_twoCalls :
    Reachable tab₀ noTone twoCalls ∧ twoCalls.PairAt 0 1 0 ∧
      (∀ e ∈ twoCallEvents, e.fits 13 0 1 = true) ∧
      ((callRun tab₀ noTone twoCalls 0 1 twoCallEvents).1 = twoCallEvents.filterMap CallEvent.heard ∧
        ∃ w', (callRun tab₀ noTone twoCalls 0 1 twoCallEvents).2.PairAt 0 1 w') :=
  have hr : Reachable tab₀ noTone twoCalls :=
    ⟨_, _, _, Cmx.zero_initial _, Trace.of_run (show run tab₀ noTone 0 _
      [.cmx 0 1 true ⟨true, true⟩, .cmx 1 1 true ⟨true, true⟩, .cmx 2 2 true ⟨true, true⟩,
        .cmx 3 2 true ⟨true, true⟩] = some (twoCalls, [], _) from rfl)⟩
  have hp : twoCalls.PairAt 0 1 0 :=
    ⟨⟨_, ⟨2, 0⟩, ⟨3, 1⟩, rfl, rfl, rfl, ⟨.inl rfl, rfl, rfl, by decide⟩, rfl, rfl⟩,
      ⟨⟨rfl, rfl, rfl, rfl⟩, ⟨rfl, rfl, rfl, rfl⟩⟩, rfl, rfl⟩
  have hes : ∀ e ∈ twoCallEvents, e.fits 13 0 1 = true := by decide
  ⟨hr, hp, hes, reachable_call_isolated hr hp twoCallEvents hes⟩

end MisdnDsp
