import MisdnDsp.Cmx.Reconfigure

/-!
# The receive path: `dsp_cmx_receive`

A frame from the card is written into the channel's rx ring and, in a conference, mixed into the
conference buffer.  The pointer bookkeeping of lines 755-805 decides whether the frame is written:

* `W_min` starts as the channel's write pointer after the frame, and every other member whose write
  pointer is behind it takes its place (`receiveWMin`); the result is stored in `conf->W_min`;
* `W_max` is the later of that `W_min` and the stored `conf->W_max` (`receiveWMax`);
* the frame is written only if `W_max` is at most `largest` ahead of `W_min`.

`writeRing` is the copy loop shared with `dsp_cmx_transmit`; `mixConfBuff` is the two loops that add
into and overwrite the conference buffer (lines 827-837).
-/

namespace MisdnDsp

variable {k : Nat}

/-- A copy loop that writes the first `n` bytes of `data` into the ring `buf` from index `w` on,
one index after the other. -/
def writeRing (buf : Ptr k → UInt8) (w : Ptr k) : Nat → List UInt8 → (Ptr k → UInt8)
  | 0, _ => buf
  | _ + 1, [] => buf
  | n + 1, b :: bs => writeRing (Function.update buf w b) w.next n bs

/-- The loop of lines 769-776: a member other than the node `self` whose write pointer is behind
the candidate `w` (`((W_rx - w) & CMX_BUFF_MASK) >= CMX_BUFF_HALF`) becomes the candidate. -/
def receiveWMin (s : Cmx k) (self : Option Nat) (w : Ptr k) : List ConfMember → Ptr k
  | [] => w
  | m :: ms =>
    receiveWMin s self
      (if some m.addr ≠ self ∧ cmxBuffHalf k ≤ (s.dsps m.dsp).wRx.off w then (s.dsps m.dsp).wRx
       else w) ms

/-- Lines 827-837: `c[w] += decode(*p++)` while the old `W_max` (`ww`) has not been reached, and
`c[w] = decode(*p++)` from there on; `add` says that the first loop is still running. -/
def mixConfBuff (dec : UInt8 → Int) (ww : Ptr k) (c : Ptr k → Int) (w : Ptr k) (add : Bool) :
    List UInt8 → (Ptr k → Int)
  | [] => c
  | b :: bs =>
    let add := add && w != ww
    mixConfBuff dec ww (Function.update c w (if add then c w + dec b else dec b)) w.next add bs

/-- Lines 744-745: `if (dsp->largest < (len<<1)) dsp->largest = (len<<1);` -/
def raiseLargest (dsp : Dsp k) (len : Nat) : Dsp k :=
  if dsp.largest < 2 * len then { dsp with largest := 2 * len } else dsp

theorem raiseLargest_eq (dsp : Dsp k) (len : Nat) :
    raiseLargest dsp len = { dsp with largest := max dsp.largest (2 * len) } := by
  unfold raiseLargest
  split
  · congr 1; omega
  · rw [Nat.max_eq_left (by omega)]

/-- Lines 783-787: `W_max` starts as `W_min`, and the stored `conf->W_max` takes its place when
`W_min` is half a ring or more after it (`((W_max - conf->W_max) & CMX_BUFF_MASK) >=
CMX_BUFF_HALF`). -/
def receiveWMax (wMin confWMax : Ptr k) : Ptr k :=
  if cmxBuffHalf k ≤ wMin.off confWMax then confWMax else wMin

/-- Less than half a ring after the stored `W_max`, `W_max` is `W_min`. -/
theorem receiveWMax_of_lt {wMin confWMax : Ptr k} (h : wMin.off confWMax < cmxBuffHalf k) :
    receiveWMax wMin confWMax = wMin :=
  if_neg (Nat.not_le.2 h)

/-- `dsp_cmx_receive`: channel `d` receives the frame `data` from its card. -/
def dspCmxReceive (tab : AudioTables) (s : Cmx k) (d : Nat) (data : List UInt8) : Cmx k :=
  let len := data.length
  if len < 1 then s
  else
    let dsp := raiseLargest (s.dsps d) len
    if cmxBuffHalf k / 4 ≤ len then s.setDsp d dsp
    else
      let w₀ := dsp.wRx.adv len
      let written := { dsp with rxBuff := writeRing dsp.rxBuff dsp.wRx len data, wRx := w₀ }
      match s.dspConf d with
      | none =>
        -- alone: `W_max = W_min`
        if w₀.off w₀ ≤ dsp.largest then s.setDsp d written
        else s.setDsp d dsp
      | some c =>
        let cl := if c.largest < dsp.largest then dsp.largest else c.largest
        let dl := if cl > dsp.largest then cl else dsp.largest
        let wMin := receiveWMin s dsp.member w₀ c.mlist
        let wMax := receiveWMax wMin c.wMax
        let c₁ := { c with largest := cl, wMin := wMin }
        if wMax.off wMin ≤ dl then
          -- `if (conf->next) if (conf->next->next)`
          let cb := if ((confNext c.addr s.confList).bind fun n => confNext n.addr s.confList).isSome
            then mixConfBuff (tab.decodeLaw dsp.ulaw) c.wMax c.confBuff dsp.wRx true data
            else c.confBuff
          (s.setConf c.addr { c₁ with confBuff := cb, wMax := wMax }).setDsp d
            { written with largest := dl }
        else (s.setConf c.addr c₁).setDsp d { dsp with largest := dl }

end MisdnDsp
