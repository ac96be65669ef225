import MisdnDsp.Cmx.System

/-!
# The tx ring as a byte queue

The tx ring of a channel holds the queue `txQueue`: the bytes from `R_tx` up to, but excluding,
`W_tx`.  Both operations on the ring refine operations on that queue:

* `dspCmxTransmit` appends the first `CMX_BUFF_SIZE - 1 - |Q|` bytes of the frame, so the ring never
  looks empty while it holds data;
* `dspCmxSend` removes the first `min |Q| len` bytes, and those are exactly the tx bytes that the
  frame uses, byte `i` at position `i`; a tone empties the queue.

The pointwise lemmas `writeRing_apply`, `sendTx_eq` and `sendRx_eq` describe the three loops once;
the queue lemmas are assembled from them.

`dspCmxSend_tx` says where each byte of a frame comes from: position `i` reads the tx queue while
it lasts and the rx side at `r + i` after that.  For a channel in a conference of two with echo
off, the rx side of position `i` is the other member's byte as the other member's card sent it
(lines 987-990): it is copied, not decoded in the other member's law and encoded in the channel's
own, as every mixing loop does.

* `dspCmxSend_length`: a frame has `len` bytes;
* `dspCmxSend_pair_tail`: in a conference of two with echo off, a position past the tx data holds
  the other member's rx byte;
* `dspCmxSend_pair_tail_not_reencoded`: so an A-law channel in conference with a u-law channel is
  sent u-law bytes.
-/

namespace MisdnDsp

variable {k : Nat}

/-- The `n` bytes of a ring from index `r` on. -/
def ringRead (buf : Ptr k → UInt8) (r : Ptr k) : Nat → List UInt8
  | 0 => []
  | n + 1 => buf r :: ringRead buf r.next n

/-- The queue of a channel's tx ring: `tx_buff[R_tx]`, `tx_buff[R_tx+1]`, ... up to `W_tx`. -/
def txQueue (dsp : Dsp k) : List UInt8 := ringRead dsp.txBuff dsp.rTx (dsp.wTx.off dsp.rTx)

@[simp] theorem length_ringRead (buf : Ptr k → UInt8) (r : Ptr k) (n : Nat) :
    (ringRead buf r n).length = n := by
  induction n generalizing r with
  | zero => rfl
  | succ n ih => simp [ringRead, ih]

theorem getElem_ringRead (buf : Ptr k → UInt8) (r : Ptr k) (n i : Nat)
    (h : i < (ringRead buf r n).length) : (ringRead buf r n)[i] = buf (r.adv i) := by
  induction n generalizing r i with
  | zero => simp at h
  | succ n ih =>
    cases i with
    | zero => simp [ringRead]
    | succ i => simp [ringRead, ih, Ptr.adv_next]

theorem length_txQueue (dsp : Dsp k) : (txQueue dsp).length = dsp.wTx.off dsp.rTx := by
  simp [txQueue]

/-- The offset from `r + q` to `r + i`, for `i < q` and for `q ≤ i`, inside one lap. -/
theorem Ptr.off_adv_adv (r : Ptr k) (i q : Nat) (hi : i < cmxBuffSize k) (hq : q ≤ cmxBuffSize k) :
    (i < q ∧ (r.adv i).off (r.adv q) = cmxBuffSize k + i - q) ∨
    (q ≤ i ∧ (r.adv i).off (r.adv q) = i - q) := by
  have e : (r.adv i).off (r.adv q) = (cmxMask k ((i : Int) - q)).val := by
    simp only [Ptr.off, Ptr.adv, cmxMask_val_sub, cmxMask_sub_val]; congr 2; omega
  by_cases h : i < q
  · have := cmxMask_val (k := k) ((i : Int) - q) (-1) (by omega) (by omega)
    omega
  · have := cmxMask_val (k := k) ((i : Int) - q) 0 (by omega) (by omega)
    omega

/-- The copy loop, pointwise: the first `min n |data|` indices from `w` on hold the data. -/
theorem writeRing_apply (buf : Ptr k → UInt8) (w : Ptr k) (n : Nat) (data : List UInt8)
    (h : n ≤ cmxBuffSize k) (p : Ptr k) :
    writeRing buf w n data p = if p.off w < min n data.length then data.getD (p.off w) 0 else buf p := by
  induction data generalizing n buf w with
  | nil => cases n <;> simp [writeRing]
  | cons b bs ih =>
    cases n with
    | zero => simp [writeRing]
    | succ n =>
      simp only [writeRing]
      rw [ih _ _ _ (by omega)]
      by_cases hp : p = w
      · subst hp
        have e : p.off p.next = cmxBuffSize k - 1 := by
          have := Ptr.off_adv_adv p 0 1 (by have := cmxBuffHalf_pos k; simp [cmxBuffSize]; omega)
            (by have := cmxBuffHalf_pos k; simp [cmxBuffSize]; omega)
          simp only [Ptr.adv_zero, ← Ptr.next_adv] at this
          omega
        have h₁ : ¬ cmxBuffSize k - 1 < min n bs.length := by omega
        have h₂ : 0 < min (n + 1) (bs.length + 1) := by omega
        simp only [e, h₁, if_false, Function.update_same, Ptr.off_self, List.length_cons, h₂, if_true,
          List.getD_cons_zero]
      · have h1 := Ptr.off_next p w hp
        have h2 : p.off w ≠ 0 := fun h0 => hp (by rw [← Ptr.adv_off p w, h0, Ptr.adv_zero])
        simp only [h1, Function.update_noteq hp, List.length_cons]
        obtain ⟨j, hj⟩ : ∃ j, p.off w = j + 1 := ⟨p.off w - 1, by omega⟩
        rw [hj]
        simp only [Nat.add_sub_cancel, List.getD_cons_succ, Nat.lt_min, Nat.add_lt_add_iff_right]

/-- A copy loop of `m` bytes at index `r + q` appends them to the `q` bytes read from `r`. -/
theorem ringRead_writeRing (buf : Ptr k → UInt8) (r : Ptr k) (q m : Nat) (data : List UInt8)
    (hm : m ≤ data.length) (hqm : q + m ≤ cmxBuffSize k) :
    ringRead (writeRing buf (r.adv q) m data) r (q + m) = ringRead buf r q ++ data.take m := by
  apply List.ext_getElem (by simp; omega)
  intro i h₁ h₂
  simp only [length_ringRead] at h₁
  rw [getElem_ringRead, writeRing_apply _ _ _ _ (by omega)]
  rcases Ptr.off_adv_adv r i q (by omega) (by omega) with ⟨hi, e⟩ | ⟨hi, e⟩
  · rw [List.getElem_append_left (by simp; omega), getElem_ringRead, e,
      if_neg (by omega)]
  · rw [List.getElem_append_right (by simp; omega), e, if_pos (by omega)]
    simp [List.getD_eq_getElem?_getD, List.getElem?_take, show i - q < m by omega,
      List.getElem?_eq_getElem (show i - q < data.length by omega)]

/-- `space` of `dsp_cmx_transmit` is the room left in the ring, `CMX_BUFF_SIZE - |Q|`. -/
theorem transmit_space (dsp : Dsp k) :
    (if (dsp.rTx.val - dsp.wTx.val : Int) ≤ 0 then (dsp.rTx.val - dsp.wTx.val : Int) + cmxBuffSize k
      else dsp.rTx.val - dsp.wTx.val) = cmxBuffSize k - (dsp.wTx.off dsp.rTx : Int) := by
  have := cmxMask_sub dsp.wTx dsp.rTx
  simp only [Ptr.off]
  split <;> omega

/-- `dsp_cmx_transmit` appends as much of the frame as the ring has room for. -/
theorem txQueue_dspCmxTransmit (dsp : Dsp k) (data : List UInt8) (h : 1 ≤ data.length) :
    txQueue (dspCmxTransmit dsp data) =
      txQueue dsp ++ data.take (min data.length (cmxBuffSize k - 1 - (txQueue dsp).length)) := by
  have hsp := transmit_space dsp
  have hq := Ptr.off_lt dsp.wTx dsp.rTx
  have hS := cmxBuffHalf_pos k
  rw [length_txQueue]
  generalize hqdef : dsp.wTx.off dsp.rTx = q at hsp hq
  have hw : dsp.wTx = dsp.rTx.adv q := by rw [← hqdef, Ptr.adv_off]
  simp only [dspCmxTransmit, if_neg (show ¬ data.length < 1 by omega), hsp, txQueue, hqdef]
  split
  · -- the frame is cut to the room left: `W_tx` becomes `R_tx - 1`
    have e : cmxMask k (dsp.rTx.val - 1) = dsp.rTx.adv (cmxBuffSize k - 1) := by
      rw [Ptr.adv, cmxMask_eq_iff, ← Int.add_emod_self]
      congr 1; simp only [cmxBuffSize]; omega
    rw [e, hw, Ptr.off_adv _ _ (by omega)]
    rcases Ptr.off_adv_adv dsp.rTx (cmxBuffSize k - 1) q (by omega) (by omega) with ⟨h₁, h₂⟩ | ⟨-, h₂⟩
    · omega
    have := ringRead_writeRing dsp.txBuff dsp.rTx q (cmxBuffSize k - 1 - q) data (by omega) (by omega)
    rw [show q + (cmxBuffSize k - 1 - q) = cmxBuffSize k - 1 by omega] at this
    rw [h₂, this]
    congr 2; omega
  · -- the whole frame fits: `W_tx` advances by its length
    have e : cmxMask k (dsp.wTx.val + data.length) = dsp.rTx.adv (q + data.length) := by
      rw [hw, Ptr.adv, Ptr.adv, cmxMask_val_add]; congr 1; push_cast; omega
    rw [e, hw, Ptr.off_adv _ _ (by omega)]
    rcases Ptr.off_adv_adv dsp.rTx (q + data.length) q (by omega) (by omega) with ⟨h₁, -⟩ | ⟨-, h₂⟩
    · omega
    rw [h₂, Nat.add_sub_cancel_left, ringRead_writeRing _ _ _ _ _ (by omega) (by omega)]
    congr 2; omega

/-! ### `dsp_cmx_send` -/

/-- Two runs of positions, the first `j` from `F` and the rest from `G`. -/
theorem append_map_range (F G : Nat → UInt8) (j n : Nat) (h : j ≤ n) :
    (List.range j).map F ++ (List.range (n - j)).map (fun i => G (j + i)) =
      (List.range n).map fun i => if i < j then F i else G i := by
  apply List.ext_getElem (by simp; omega)
  intro i h₁ h₂
  by_cases hi : i < j
  · rw [List.getElem_append_left (by simpa using hi)]
    simp [hi]
  · rw [List.getElem_append_right (by simp; omega)]
    simp only [List.length_map, List.length_range, List.getElem_map, List.getElem_range, hi, if_false]
    congr 1; omega

theorem drop_ringRead (buf : Ptr k → UInt8) (r : Ptr k) (n j : Nat) :
    (ringRead buf r n).drop j = ringRead buf (r.adv j) (n - j) := by
  apply List.ext_getElem (by simp)
  intro i h₁ h₂
  simp [getElem_ringRead, Ptr.adv_adv]

/-- The first loop of a branch runs `min (tt.off t) n` positions: while tx data is left. -/
theorem sendTx_eq (f : UInt8 → Ptr k → UInt8) (p : Ptr k → UInt8) (tt t r : Ptr k) (n : Nat) :
    sendTx f p tt t r n =
      ⟨(List.range (min (tt.off t) n)).map (fun i => f (p (t.adv i)) (r.adv i)),
        t.adv (min (tt.off t) n), r.adv (min (tt.off t) n), n - min (tt.off t) n⟩ := by
  induction n generalizing t r with
  | zero => simp [sendTx]
  | succ n ih =>
    simp only [sendTx]
    split
    · rename_i h
      subst h
      simp [Ptr.off_self]
    · rename_i h
      have h₁ := Ptr.off_next tt t (Ne.symm h)
      have h₀ : tt.off t ≠ 0 := fun h0 => h (by rw [← Ptr.adv_off tt t, h0, Ptr.adv_zero])
      obtain ⟨j, hj⟩ : ∃ j, min (tt.off t) (n + 1) = j + 1 := ⟨min (tt.off t) (n + 1) - 1, by omega⟩
      have hj' : min (tt.off t.next) n = j := by omega
      rw [ih, hj, hj', List.range_succ_eq_map]
      simp [Ptr.adv_next, Function.comp_def]

/-- The second loop of a branch emits `g` at each of the `n` positions. -/
theorem sendRx_eq (g : Ptr k → UInt8) (r : Ptr k) (n : Nat) :
    sendRx g r n = (List.range n).map fun i => g (r.adv i) := by
  induction n generalizing r with
  | zero => rfl
  | succ n ih => simp [sendRx, ih, List.range_succ_eq_map, Ptr.adv_next, Function.comp_def]

/-- The read window of `dsp_cmx_send` is exactly `len` positions long. -/
theorem sendWindow_off (s : Cmx k) (d len : Nat) (h : len < cmxBuffSize k) :
    (sendWindow s d len).2.off (sendWindow s d len).1 = len := by
  simp only [sendWindow]
  split <;> simp only [Ptr.off, cmxMask_val_sub, cmxMask_sub_val] <;> exact cmxMask_eq_of_eq _ _ (by omega) h

/-- A branch: its two loops emit `F` at the positions with tx data and `G` at the rest. -/
theorem sendTx_sendRx (F : UInt8 → Ptr k → UInt8) (G : Ptr k → UInt8) (p : Ptr k → UInt8)
    (tt t r : Ptr k) (n : Nat) :
    (sendTx F p tt t r n).out ++ sendRx G (sendTx F p tt t r n).r (sendTx F p tt t r n).n =
      (List.range n).map fun i => if i < min (tt.off t) n then F (p (t.adv i)) (r.adv i) else G (r.adv i) := by
  rw [sendTx_eq, sendRx_eq]
  simp only [Ptr.adv_adv]
  exact append_map_range (fun i => F (p (t.adv i)) (r.adv i)) (fun i => G (r.adv i)) _ _ (Nat.min_le_right _ _)

/-- The verbatim loop of lines 917-921 covers the whole frame when the tx data lasts. -/
theorem sendTx_prefix_done (F₀ : UInt8 → Ptr k → UInt8) (G : Ptr k → UInt8) (p : Ptr k → UInt8)
    (tt t r : Ptr k) (n : Nat) (h : (sendTx F₀ p tt t r n).n = 0) :
    (sendTx F₀ p tt t r n).out =
      ((List.range n).map fun i => if i < min (tt.off t) n then F₀ (p (t.adv i)) (r.adv i) else G (r.adv i)) ∧
    (sendTx F₀ p tt t r n).t = t.adv (min (tt.off t) n) := by
  rw [sendTx_eq] at h ⊢
  simp only at h
  refine ⟨?_, rfl⟩
  rw [show min (tt.off t) n = n by omega]
  apply List.map_congr_left
  intro a ha
  rw [if_pos (List.mem_range.mp ha)]

/-- When the tx data runs out first, the branch continues without it (lines 922-925 fall through). -/
theorem sendTx_prefix_rest (F₀ F : UInt8 → Ptr k → UInt8) (G : Ptr k → UInt8) (p : Ptr k → UInt8)
    (tt t r : Ptr k) (n : Nat) (h : (sendTx F₀ p tt t r n).n ≠ 0) :
    (sendTx F₀ p tt t r n).out ++ (sendTx F p tt (sendTx F₀ p tt t r n).t (sendTx F₀ p tt t r n).r
        (sendTx F₀ p tt t r n).n).out ++
      sendRx G (sendTx F p tt (sendTx F₀ p tt t r n).t (sendTx F₀ p tt t r n).r (sendTx F₀ p tt t r n).n).r
        (sendTx F p tt (sendTx F₀ p tt t r n).t (sendTx F₀ p tt t r n).r (sendTx F₀ p tt t r n).n).n =
      ((List.range n).map fun i => if i < min (tt.off t) n then F₀ (p (t.adv i)) (r.adv i) else G (r.adv i)) ∧
    (sendTx F p tt (sendTx F₀ p tt t r n).t (sendTx F₀ p tt t r n).r (sendTx F₀ p tt t r n).n).t =
      t.adv (min (tt.off t) n) := by
  rw [sendTx_eq] at h
  simp only at h
  have hj : min (tt.off t) n = tt.off t := by omega
  have ht : t.adv (tt.off t) = tt := Ptr.adv_off tt t
  rw [sendTx_eq F₀]
  simp only [hj, ht, sendTx_eq F, Ptr.off_self, Nat.zero_min, List.range_zero, List.map_nil,
    List.append_nil, Ptr.adv_zero, Nat.sub_zero, sendRx_eq, Ptr.adv_adv, and_true]
  exact append_map_range (fun i => F₀ (p (t.adv i)) (r.adv i)) (fun i => G (r.adv i)) _ _ (by omega)

/-- `dsp_cmx_send` without a tone: the first `min |Q| len` bytes of the tx queue are taken off, and
the frame uses them at its first positions, in order (verbatim unless `tx_mix`); the other
positions come from the rx side of the branch. -/
theorem dspCmxSend_tx (tab : AudioTables) (toneCopy : Nat → List UInt8) (s : Cmx k) (d len : Nat)
    (hlen : len < cmxBuffSize k) (htone : (s.dsps d).tone = false) :
    (dspCmxSend tab toneCopy s d len).1 = (List.range len).map (fun i =>
        if i < min (txQueue (s.dsps d)).length len then
          (if (s.dsps d).txMix then (sendMix tab s d).1 else fun x _ => x)
            ((txQueue (s.dsps d)).getD i 0) ((sendWindow s d len).1.adv i)
        else (sendMix tab s d).2 ((sendWindow s d len).1.adv i)) ∧
      txQueue ((dspCmxSend tab toneCopy s d len).2.dsps d) =
        (txQueue (s.dsps d)).drop (min (txQueue (s.dsps d)).length len) := by
  have hn := sendWindow_off s d len hlen
  generalize hq : (s.dsps d).wTx.off (s.dsps d).rTx = q
  have hw : (s.dsps d).wTx = (s.dsps d).rTx.adv q := by rw [← hq, Ptr.adv_off]
  have hqS : q < cmxBuffSize k := by rw [← hq]; exact Ptr.off_lt _ _
  have hget : ∀ i, i < q →
      (txQueue (s.dsps d)).getD i 0 = (s.dsps d).txBuff ((s.dsps d).rTx.adv i) := by
    intro i hi
    have hi' : i < (txQueue (s.dsps d)).length := by rw [length_txQueue, hq]; exact hi
    rw [List.getD_eq_getElem?_getD, List.getElem?_eq_getElem hi', Option.getD_some]
    exact getElem_ringRead _ _ _ _ _
  have hqueue : ∀ j, j ≤ q → ∀ x : Ptr k,
      txQueue { s.dsps d with rRx := x, rTx := (s.dsps d).rTx.adv j } = (txQueue (s.dsps d)).drop j := by
    intro j hj x
    have e : (s.dsps d).wTx.off ((s.dsps d).rTx.adv j) = q - j := by
      rw [hw]
      rcases Ptr.off_adv_adv (s.dsps d).rTx q j (by rw [← hq]; exact Ptr.off_lt _ _) (by omega) with
        ⟨h₁, -⟩ | ⟨-, h₂⟩
      · omega
      · exact h₂
    simp only [txQueue, drop_ringRead, e, hq]
  rw [length_txQueue, hq]
  simp only [dspCmxSend, htone, Bool.false_eq_true, if_false]
  generalize sendWindow s d len = w at hn ⊢
  rw [hn]
  generalize sendMix tab s d = fg
  have hF : ∀ F : UInt8 → Ptr k → UInt8, ((List.range len).map fun i =>
      if i < min q len then F ((s.dsps d).txBuff ((s.dsps d).rTx.adv i)) (w.1.adv i) else fg.2 (w.1.adv i)) =
      (List.range len).map fun i =>
      if i < min q len then F ((txQueue (s.dsps d)).getD i 0) (w.1.adv i) else fg.2 (w.1.adv i) := by
    intro F
    apply List.map_congr_left
    intro i _
    split
    · rw [hget i (by omega)]
    · rfl
  split
  · -- lines 915-926: tx data verbatim first
    rename_i hc
    simp only [Bool.not_eq_true', ne_eq] at hc
    simp only [hc.1, Bool.false_eq_true, if_false]
    split
    · rename_i h0
      obtain ⟨e₁, e₂⟩ := sendTx_prefix_done (fun x _ => x) fg.2 (s.dsps d).txBuff _ _ w.1 len h0
      rw [hq] at e₁ e₂
      simp only [e₁, e₂, Cmx.setDsp_dsps, if_pos rfl]
      exact ⟨hF fun x _ => x, hqueue _ (by omega) w.2⟩
    · rename_i h0
      obtain ⟨e₁, e₂⟩ := sendTx_prefix_rest (fun x _ => x) fg.1 fg.2 (s.dsps d).txBuff _ _ w.1 len h0
      rw [hq] at e₁ e₂
      simp only [e₁, e₂, Cmx.setDsp_dsps, if_pos rfl]
      exact ⟨hF fun x _ => x, hqueue _ (by omega) w.2⟩
  · rename_i hc
    rw [sendTx_sendRx, hq]
    simp only [Cmx.setDsp_dsps, if_pos rfl, sendTx_eq, hq]
    refine ⟨?_, hqueue _ (by omega) w.2⟩
    by_cases hmix : (s.dsps d).txMix = true
    · simp only [hmix, if_true]
      exact hF fg.1
    · -- no tx data: `R_tx = W_tx`
      have ht : (s.dsps d).rTx = (s.dsps d).wTx := by
        by_contra hne
        exact hc ⟨by simpa using hmix, hne⟩
      have hq0 : q = 0 := by rw [← hq, ht, Ptr.off_self]
      simp [hq0]

/-- A tone empties the tx ring (line 911). -/
theorem txQueue_dspCmxSend_tone (tab : AudioTables) (toneCopy : Nat → List UInt8) (s : Cmx k)
    (d len : Nat) (htone : (s.dsps d).tone = true) :
    txQueue ((dspCmxSend tab toneCopy s d len).2.dsps d) = [] := by
  simp [dspCmxSend, htone, txQueue, Ptr.off_self, ringRead]

/-- The tx ring refines a byte queue: `dsp_cmx_transmit` appends what fits, and `dsp_cmx_send`
takes off the bytes its frame uses, in order, at the frame's first positions, or everything for a
tone. -/
theorem txQueue_refinement :
    (∀ (dsp : Dsp k) (data : List UInt8), 1 ≤ data.length →
      txQueue (dspCmxTransmit dsp data) =
        txQueue dsp ++ data.take (min data.length (cmxBuffSize k - 1 - (txQueue dsp).length))) ∧
    (∀ (tab : AudioTables) (toneCopy : Nat → List UInt8) (s : Cmx k) (d len : Nat),
      len < cmxBuffSize k → (s.dsps d).tone = false →
      (dspCmxSend tab toneCopy s d len).1 = (List.range len).map (fun i =>
          if i < min (txQueue (s.dsps d)).length len then
            (if (s.dsps d).txMix then (sendMix tab s d).1 else fun x _ => x)
              ((txQueue (s.dsps d)).getD i 0) ((sendWindow s d len).1.adv i)
          else (sendMix tab s d).2 ((sendWindow s d len).1.adv i)) ∧
        txQueue ((dspCmxSend tab toneCopy s d len).2.dsps d) =
          (txQueue (s.dsps d)).drop (min (txQueue (s.dsps d)).length len)) ∧
    (∀ (tab : AudioTables) (toneCopy : Nat → List UInt8) (s : Cmx k) (d len : Nat),
      (s.dsps d).tone = true → txQueue ((dspCmxSend tab toneCopy s d len).2.dsps d) = []) :=
  ⟨txQueue_dspCmxTransmit, dspCmxSend_tx, txQueue_dspCmxSend_tone⟩

/-! ### The bytes of a frame -/

/-- Lines 987-990: with two members and echo off, the rx side of a position is the other
member's rx byte. -/
theorem sendMix_pair_snd (tab : AudioTables) (s : Cmx k) (d : Nat) {c : Conference k}
    {m₁ m₂ : ConfMember} (hc : s.dspConf d = some c) (hm : c.mlist = [m₁, m₂])
    (hecho : (s.dsps d).echo = false) :
    (sendMix tab s d).2 = fun r => (s.dsps (if m₁.dsp = d then m₂.dsp else m₁.dsp)).rxBuff r := by
  simp [sendMix, hc, hm, hecho]

/-- A frame without a tone has `len` bytes. -/
theorem dspCmxSend_length (tab : AudioTables) (toneCopy : Nat → List UInt8) (s : Cmx k) (d len : Nat)
    (hlen : len < cmxBuffSize k) (htone : (s.dsps d).tone = false) :
    (dspCmxSend tab toneCopy s d len).1.length = len := by
  rw [(dspCmxSend_tx tab toneCopy s d len hlen htone).1, List.length_map, List.length_range]

/-- In a conference of two with echo off, the position `i` of a frame past the `min |Q| len` tx
bytes holds the other member's rx byte at `r + i`. -/
theorem dspCmxSend_pair_tail (tab : AudioTables) (toneCopy : Nat → List UInt8) (s : Cmx k)
    (d len : Nat) {c : Conference k} {m₁ m₂ : ConfMember} (hlen : len < cmxBuffSize k)
    (htone : (s.dsps d).tone = false) (hecho : (s.dsps d).echo = false)
    (hc : s.dspConf d = some c) (hm : c.mlist = [m₁, m₂]) {i : Nat} (hi : i < len)
    (hq : min (txQueue (s.dsps d)).length len ≤ i) :
    (dspCmxSend tab toneCopy s d len).1[i]? =
      some ((s.dsps (if m₁.dsp = d then m₂.dsp else m₁.dsp)).rxBuff ((sendWindow s d len).1.adv i)) := by
  rw [(dspCmxSend_tx tab toneCopy s d len hlen htone).1, List.getElem?_map, List.getElem?_range hi,
    Option.map_some', if_neg (by omega), sendMix_pair_snd tab s d hc hm hecho]

/-- Tables that agree with G.711 on silence: each law's silence byte decodes to 0, and 0 encodes to
each law's silence byte; every other byte decodes to its value and every other sample encodes to
0. -/
def tabSilence : AudioTables :=
  ⟨fun b => if b = 0xd5 then 0 else b.toNat, fun b => if b = 0xff then 0 else b.toNat,
    fun x => if x = 0 then 0xd5 else 0, fun x => if x = 0 then 0xff else 0, 0xd5, 0xff⟩

/-- Channel 0 (A-law) and channel 1 (u-law) join conference 1, and channel 0 sends a frame of one
byte with echo off and no tx data.  The frame is the u-law silence `0xff` that channel 1's rx ring
was cleared to, where the other member's byte re-encoded in channel 0's law is the A-law silence
`0xd5`.  In general, in every conference of two with echo off, a position past the tx data holds
the other member's rx byte as it is. -/
theorem dspCmxSend_pair_tail_not_reencoded :
    (∀ (tab : AudioTables) (toneCopy : Nat → List UInt8) (s : Cmx k) (d len : Nat) (c : Conference k)
      (m₁ m₂ : ConfMember), len < cmxBuffSize k → (s.dsps d).tone = false → (s.dsps d).echo = false →
      s.dspConf d = some c → c.mlist = [m₁, m₂] →
      (dspCmxSend tab toneCopy s d len).1.length = len ∧
      ∀ i, i < len → min (txQueue (s.dsps d)).length len ≤ i →
        (dspCmxSend tab toneCopy s d len).1[i]? = some
          ((s.dsps (if m₁.dsp = d then m₂.dsp else m₁.dsp)).rxBuff ((sendWindow s d len).1.adv i))) ∧
    ∃ s ds, Trace tabSilence noTone
        ({ Cmx.zero fun _ => 0 with dsps := fun d => { Dsp.zero 0 with ulaw := d == 1 } } : Cmx 13)
        [.cmx 0 1 true ⟨true, true⟩, .cmx 1 1 true ⟨true, true⟩] ds s ∧
      (s.dsps 0).ulaw = false ∧ (s.dsps 1).ulaw = true ∧ (s.dsps 0).echo = false ∧
      txQueue (s.dsps 0) = [] ∧
      (s.dsps 1).rxBuff (sendWindow s 0 1).1 = 0xff ∧
      (dspCmxSend tabSilence noTone s 0 1).1 = [0xff] ∧
      encodeSample (tabSilence.encodeLaw (s.dsps 0).ulaw)
        (tabSilence.decodeLaw (s.dsps 1).ulaw ((s.dsps 1).rxBuff (sendWindow s 0 1).1)) = 0xd5 := by
  refine ⟨fun tab toneCopy s d len c m₁ m₂ hlen htone hecho hc hm =>
    ⟨dspCmxSend_length tab toneCopy s d len hlen htone,
      fun i hi hq => dspCmxSend_pair_tail tab toneCopy s d len hlen htone hecho hc hm hi hq⟩, ?_⟩
  exact Trace.exists_of_run 0 (fun s _ => !(s.dsps 0).ulaw && (s.dsps 1).ulaw && !(s.dsps 0).echo &&
      txQueue (s.dsps 0) == [] && (s.dsps 1).rxBuff (sendWindow s 0 1).1 == 0xff &&
      (dspCmxSend tabSilence noTone s 0 1).1 == [0xff] &&
      encodeSample (tabSilence.encodeLaw (s.dsps 0).ulaw)
        (tabSilence.decodeLaw (s.dsps 1).ulaw ((s.dsps 1).rxBuff (sendWindow s 0 1).1)) == 0xd5)
    (fun s _ h => by simpa [and_assoc] using h) (by decide)

end MisdnDsp
