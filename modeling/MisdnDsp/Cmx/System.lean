import MisdnDsp.Cmx.Send

/-!
# The CMX as a system

Every entry point of the CMX is one kind of step: a frame received from the card, a frame sent to
it, data queued from user space, and a reconfiguration, where the upper layer sets a channel's
`conf_id` and `b_active` and calls `dsp_cmx`.  The caller serialises the entry points, so a run is a
sequence of steps.  A step also gives back what its entry point returns (`Reply`): the `int` of
`dsp_cmx` and the frame of `dsp_cmx_send`.  `Trace s₀ ops ds s` says that the steps `ops` lead from
`s₀` to `s` and issue the hardware directives `ds`; `run` computes a trace and the replies, with the
fuel of every `dsp_cmx` call fixed, and `Trace.of_run` turns a computed run into a trace.

The layer above (`dsp_core.c`, not among the sources) also sets a channel's `tx_mix`, `echo`, tone,
law and chip between calls; no step does, so along a run these fields keep their initial values
(`Trace.sameMode`).

An initial state has no conference and no channel in one (`Cmx.Initial`).
-/

namespace MisdnDsp

variable {k : Nat}

/-- A call of one entry point of the CMX, with the choices the environment makes. -/
inductive Op where
  /-- `dsp_cmx_receive(dsp, skb)` -/
  | receive (d : Nat) (data : List UInt8)
  /-- `dsp_cmx_send(dsp, len, dinfo)` -/
  | send (d : Nat) (len : Nat)
  /-- `dsp_cmx_transmit(dsp, skb)` -/
  | transmit (d : Nat) (data : List UInt8)
  /-- `dsp->conf_id` and `dsp->b_active` are set, then `dsp_cmx(dsp)` runs; `ok` says which
  allocations succeed -/
  | cmx (d : Nat) (confId : Nat) (bActive : Bool) (ok : Vmalloc)
deriving DecidableEq, Repr

/-- What an entry point returns to its caller. -/
inductive Reply where
  /-- `dsp_cmx_receive` and `dsp_cmx_transmit` return `void` -/
  | void
  /-- the frame `dsp_cmx_send` returns for the card -/
  | frame (data : List UInt8)
  /-- the `int` that `dsp_cmx` returns -/
  | ret (r : Int)
deriving DecidableEq, Repr

/-- One step: the new state, the directives it issues and what it returns; `none` when `dsp_cmx`
does not return within `fuel` rounds of its free-unit search. -/
def step (tab : AudioTables) (toneCopy : Nat → List UInt8) (fuel : Nat) (s : Cmx k) :
    Op → Option (Cmx k × List Directive × Reply)
  | .receive d data => some (dspCmxReceive tab s d data, [], .void)
  | .send d len =>
    let r := dspCmxSend tab toneCopy s d len
    some (r.2, [], .frame r.1)
  | .transmit d data => some (s.setDsp d (dspCmxTransmit (s.dsps d) data), [], .void)
  | .cmx d confId bActive ok =>
    (dspCmx tab fuel ok (s.setDsp d { s.dsps d with confId := confId, bActive := bActive }) d).map
      fun r => (r.1, r.2.1, .ret r.2.2)

/-- The steps `ops` lead from `s₀` to `s` and issue the directives `ds`. -/
inductive Trace (tab : AudioTables) (toneCopy : Nat → List UInt8) (s₀ : Cmx k) :
    List Op → List Directive → Cmx k → Prop
  | nil : Trace tab toneCopy s₀ [] [] s₀
  | snoc {ops ds s op fuel s' ds' r} : Trace tab toneCopy s₀ ops ds s →
      step tab toneCopy fuel s op = some (s', ds', r) →
      Trace tab toneCopy s₀ (ops ++ [op]) (ds ++ ds') s'

/-- No conference exists and no channel is in one. -/
def Cmx.Initial (s : Cmx k) : Prop :=
  s.confList = [] ∧ ∀ d, (s.dsps d).conf = none ∧ (s.dsps d).member = none

/-- The states reachable from an initial state. -/
def Reachable (tab : AudioTables) (toneCopy : Nat → List UInt8) (s : Cmx k) : Prop :=
  ∃ s₀ ops ds, s₀.Initial ∧ Trace tab toneCopy s₀ ops ds s

/-- Run the steps `ops` from `s`, every `dsp_cmx` with `fuel` rounds: the last state, the
directives, and the reply of each step. -/
def run (tab : AudioTables) (toneCopy : Nat → List UInt8) (fuel : Nat) (s : Cmx k) :
    List Op → Option (Cmx k × List Directive × List Reply)
  | [] => some (s, [], [])
  | op :: ops => (step tab toneCopy fuel s op).bind fun r =>
      (run tab toneCopy fuel r.1 ops).map fun r' => (r'.1, r.2.1 ++ r'.2.1, r.2.2 :: r'.2.2)

theorem Trace.cons {tab : AudioTables} {toneCopy : Nat → List UInt8} {s₀ s₁ s : Cmx k} {op : Op}
    {fuel : Nat} {ds₁ : List Directive} {r : Reply} {ops : List Op} {ds : List Directive}
    (h₁ : step tab toneCopy fuel s₀ op = some (s₁, ds₁, r)) (h : Trace tab toneCopy s₁ ops ds s) :
    Trace tab toneCopy s₀ (op :: ops) (ds₁ ++ ds) s := by
  induction h with
  | nil => simpa using Trace.snoc Trace.nil h₁
  | snoc _ hs ih => simpa using Trace.snoc ih hs

/-- A computed run is a trace. -/
theorem Trace.of_run {tab : AudioTables} {toneCopy : Nat → List UInt8} {fuel : Nat} :
    ∀ {s s' : Cmx k} {ops : List Op} {ds : List Directive} {rs : List Reply},
      run tab toneCopy fuel s ops = some (s', ds, rs) → Trace tab toneCopy s ops ds s'
  | s, s', [], ds, rs, h => by
    simp only [run, Option.some.injEq, Prod.mk.injEq] at h
    obtain ⟨rfl, rfl, -⟩ := h
    exact Trace.nil
  | s, s', op :: ops, ds, rs, h => by
    simp only [run, Option.bind_eq_some, Option.map_eq_some'] at h
    obtain ⟨⟨s₁, ds₁, r₁⟩, h₁, ⟨s₂, ds₂, rs₂⟩, h₂, he⟩ := h
    simp only [Prod.mk.injEq] at he
    obtain ⟨rfl, rfl, -⟩ := he
    exact Trace.cons h₁ (Trace.of_run h₂)

/-- A computed run that ends in a state where the test `p` holds, which implies `P`. -/
theorem Trace.exists_of_run {tab : AudioTables} {toneCopy : Nat → List UInt8} (fuel : Nat)
    {s₀ : Cmx k} {ops : List Op} {P : Cmx k → List Directive → Prop}
    (p : Cmx k → List Directive → Bool) (hp : ∀ s ds, p s ds = true → P s ds)
    (h : (run tab toneCopy fuel s₀ ops).map (fun r => p r.1 r.2.1) = some true) :
    ∃ s ds, Trace tab toneCopy s₀ ops ds s ∧ P s ds := by
  cases hr : run tab toneCopy fuel s₀ ops with
  | none => simp [hr] at h
  | some r =>
    simp only [hr, Option.map_some', Option.some.injEq] at h
    exact ⟨r.1, r.2.1, Trace.of_run hr, hp _ _ h⟩

/-! ### Fixed inputs for replaying runs -/

/-- A channel as the layer above creates it: zeroed, A-law, on chip `hfcId`. -/
def Dsp.zero (hfcId : Nat) : Dsp k :=
  { conf := none, member := none, confId := 0, bActive := false, ulaw := false, echo := false,
    txMix := false, hfcId := hfcId, tone := false, largest := 0, wRx := 0, rRx := 0, wTx := 0,
    rTx := 0, rxBuff := fun _ => 0, txBuff := fun _ => 0 }

/-- No conference, and channel `d` zeroed on chip `hfc d`; addresses start at 1. -/
def Cmx.zero (hfc : Nat → Nat) : Cmx k := ⟨[], fun d => Dsp.zero (hfc d), 1⟩

theorem Cmx.zero_initial (hfc : Nat → Nat) : (Cmx.zero hfc : Cmx k).Initial :=
  ⟨rfl, fun _ => ⟨rfl, rfl⟩⟩

/-- Tables for replaying runs: a byte decodes to its value, every sample encodes to 0, and the
silence bytes are those of G.711 (`0xd5`, `0xff`). -/
def tab₀ : AudioTables := ⟨fun b => b.toNat, fun b => b.toNat, fun _ => 0, fun _ => 0, 0xd5, 0xff⟩

/-- A tone generator for replaying runs. -/
def noTone : Nat → List UInt8 := fun _ => []

end MisdnDsp
