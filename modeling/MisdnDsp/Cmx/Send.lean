import MisdnDsp.Cmx.Receive

/-!
# The transmit and send paths: `dsp_cmx_transmit`, `dsp_cmx_send`

`dsp_cmx_transmit` queues data from user space in the channel's tx ring, dropping what does not fit.
`dsp_cmx_send` produces the frame for the card: it fixes the read window `[r, rr)` of the rx side
(lines 885-900), then either copies a tone, or runs the loops of one of six mixing branches.  Every
branch has the same shape: while tx data is left, position `r` is emitted from the tx byte and the
rx side (`f`), and after that from the rx side alone (`g`); `sendMix` gives the pair `(f, g)` of the
branch.  With tx data and `tx_mix` off, the tx bytes are first copied verbatim (lines 915-926).

The `while (r != rr)` loops are modelled by the number of positions they run, `(rr - r) &
CMX_BUFF_MASK`.  `alloc_skb` is taken to succeed, and the tone generator `dsp_tone_copy`, outside the
sources, is the parameter `toneCopy`.
-/

namespace MisdnDsp

variable {k : Nat}

/-! ### `dsp_cmx_transmit` -/

/-- `dsp_cmx_transmit` on the channel `dsp`. -/
def dspCmxTransmit (dsp : Dsp k) (data : List UInt8) : Dsp k :=
  if data.length < 1 then dsp
  else
    let w := dsp.wTx
    let space₀ : Int := dsp.rTx.val - w.val
    let space := if space₀ ≤ 0 then space₀ + cmxBuffSize k else space₀
    let ww := if space - 1 < data.length then cmxMask k (dsp.rTx.val - 1)
      else cmxMask k (w.val + data.length)
    -- `while (w != ww) { p[w] = *d++; w = (w+1) & CMX_BUFF_MASK; }` runs `ww.off w` times
    { dsp with wTx := ww, txBuff := writeRing dsp.txBuff w (ww.off w) data }

/-! ### `dsp_cmx_send` -/

/-- The clamp of every mixing loop: `if (sample < -32768) ... else if (sample > 32767) ...`. -/
def sat16 (x : Int) : Int := if x < -32768 then -32768 else if x > 32767 then 32767 else x

/-- `encode_law[sample & 0xffff]` after the clamp. -/
def encodeSample (enc : Nat → UInt8) (x : Int) : UInt8 := enc (sat16 x % 65536).toNat

/-- Where the first loop of a branch stopped: the bytes emitted, the tx and rx read indices, and the
number of positions still to emit. -/
structure TxRun (k : Nat) where
  out : List UInt8
  t : Ptr k
  r : Ptr k
  n : Nat

/-- `while (r != rr && t != tt) { *d++ = f(p[t], r); t++; r++; }` over `n` positions. -/
def sendTx (f : UInt8 → Ptr k → UInt8) (p : Ptr k → UInt8) (tt : Ptr k) :
    Ptr k → Ptr k → Nat → TxRun k
  | t, r, 0 => ⟨[], t, r, 0⟩
  | t, r, n + 1 =>
    if t = tt then ⟨[], t, r, n + 1⟩
    else
      let o := sendTx f p tt t.next r.next n
      ⟨f (p t) r :: o.out, o.t, o.r, o.n⟩

/-- `while (r != rr) { *d++ = g(r); r++; }` over `n` positions (the `memset` of line 941 too). -/
def sendRx (g : Ptr k → UInt8) : Ptr k → Nat → List UInt8
  | _, 0 => []
  | r, n + 1 => g r :: sendRx g r.next n

/-- The mixing branch of `dsp_cmx_send` for channel `d` (lines 929-1074): what it emits at read
index `r` with tx byte `x` (first component) and without tx data (second component).  A chain of one
node is the single case (`goto single`); an empty chain cannot be reached and is read as single too. -/
def sendMix (tab : AudioTables) (s : Cmx k) (d : Nat) : (UInt8 → Ptr k → UInt8) × (Ptr k → UInt8) :=
  let dsp := s.dsps d
  let dec := tab.decodeLaw dsp.ulaw
  let enc := encodeSample (tab.encodeLaw dsp.ulaw)
  let q := dsp.rxBuff
  let single : (UInt8 → Ptr k → UInt8) × (Ptr k → UInt8) :=
    if dsp.echo then (fun x r => enc (dec x + dec (q r)), fun r => q r)
    else (fun x _ => x, fun _ => tab.silence dsp.ulaw)
  match s.dspConf d with
  | none => single
  | some c =>
    match c.mlist with
    | [] | [_] => single
    | [m₁, m₂] =>
      -- `other = conf->mlist->dsp; if (other == member) other = conf->mlist->next->dsp;`
      let other := s.dsps (if m₁.dsp = d then m₂.dsp else m₁.dsp)
      let odec := tab.decodeLaw other.ulaw
      let o := other.rxBuff
      if dsp.echo then
        (fun x r => enc (dec x + odec (o r) + dec (q r)), fun r => enc (odec (o r) + dec (q r)))
      else (fun x r => enc (dec x + odec (o r)), fun r => o r)
    | _ =>
      let c := c.confBuff
      if dsp.echo then (fun x r => enc (dec x + c r), fun r => enc (c r))
      else (fun x r => enc (dec x + c r - dec (q r)), fun r => enc (c r - dec (q r)))

/-- The read window of lines 885-900: `rr` is `conf->W_min` (or the channel's own `W_rx`), and if
`len` bytes from `R_rx` would overrun it, `r` becomes `rr - len`; otherwise `rr` becomes
`R_rx + len`. -/
def sendWindow (s : Cmx k) (d : Nat) (len : Nat) : Ptr k × Ptr k :=
  let dsp := s.dsps d
  let rr := match s.dspConf d with
    | some c => c.wMin
    | none => dsp.wRx
  if cmxBuffHalf k ≤ (cmxMask k (rr.val - dsp.rRx.val - len)).val then (cmxMask k (rr.val - len), rr)
  else (dsp.rRx, cmxMask k (dsp.rRx.val + len))

/-- `dsp_cmx_send`: the frame channel `d` sends to its card, and the new state. -/
def dspCmxSend (tab : AudioTables) (toneCopy : Nat → List UInt8) (s : Cmx k) (d : Nat) (len : Nat) :
    List UInt8 × Cmx k :=
  let w := sendWindow s d len
  let dsp := { s.dsps d with rRx := w.2 }
  if dsp.tone then (toneCopy len, s.setDsp d { dsp with rTx := 0, wTx := 0 })
  else
    let t := dsp.rTx
    let tt := dsp.wTx
    let n := w.2.off w.1
    let fg := sendMix tab s d
    if !dsp.txMix ∧ t ≠ tt then
      -- lines 915-926: tx data verbatim, then the branch for what is left
      let o₁ := sendTx (fun x _ => x) dsp.txBuff tt t w.1 n
      if o₁.n = 0 then (o₁.out, s.setDsp d { dsp with rTx := o₁.t })
      else
        let o₂ := sendTx fg.1 dsp.txBuff tt o₁.t o₁.r o₁.n
        (o₁.out ++ o₂.out ++ sendRx fg.2 o₂.r o₂.n, s.setDsp d { dsp with rTx := o₂.t })
    else
      let o₂ := sendTx fg.1 dsp.txBuff tt t w.1 n
      (o₂.out ++ sendRx fg.2 o₂.r o₂.n, s.setDsp d { dsp with rTx := o₂.t })

/-- `dsp_cmx_send` writes only the read pointers of the channel and, for a tone, its `W_tx`. -/
theorem dspCmxSend_state (tab : AudioTables) (toneCopy : Nat → List UInt8) (s : Cmx k) (d len : Nat) :
    ∃ rRx rTx wTx, (dspCmxSend tab toneCopy s d len).2 =
      s.setDsp d { s.dsps d with rRx := rRx, rTx := rTx, wTx := wTx } := by
  simp only [dspCmxSend]
  split
  · exact ⟨_, _, _, rfl⟩
  split
  · split
    · exact ⟨_, _, _, rfl⟩
    · exact ⟨_, _, _, rfl⟩
  · exact ⟨_, _, _, rfl⟩

end MisdnDsp
