import MisdnDsp.Cmx.System

/-!
# Flow control and mixing on the receive path

What `dsp_cmx_receive` does with the write pointers of a conference, against the comments that
describe it (lines 44-61 and 798-803):

* `receiveWMin_le`: the member loop finds the slowest writer, as long as every write pointer lies
  within half a ring;
* `receiveWMin_arc`: on an arc shorter than half the ring it ends on the earliest pointer, whatever
  the order of the chain, and `W_max` becomes the later of `W_min` and the stored `W_max`;
* `dspCmxReceive_alone`: a channel in no conference writes every frame that fits;
* `dspCmxReceive_wRx_length`: whether a frame is written depends on its length only;
* `dspCmxReceive_confBuff`: with at most two conferences in `Conf_list`, no frame reaches a
  conference buffer, because the test of line 816 follows `conf->next`, the next conference, not
  the next member.

The replayed runs after them show where the bookkeeping parts from the comments: `W_max` never
takes the writer's own pointer, so the writer leaves the window; a `W_max` left behind by a member
that has gone blocks the member that stays; and a conference of three members alone in `Conf_list`
mixes nothing.
-/

namespace MisdnDsp

variable {k : Nat}

/-! ### `W_min` -/

/-- Within half a ring after a base `b`, the member loop of lines 769-776 ends on a pointer no
later than the candidate and than the write pointer of every other member. -/
theorem receiveWMin_le (s : Cmx k) (self : Option Nat) (b : Ptr k) (ms : List ConfMember)
    (hms : ∀ m ∈ ms, some m.addr ≠ self → (s.dsps m.dsp).wRx.off b < cmxBuffHalf k) (w : Ptr k)
    (hw : w.off b < cmxBuffHalf k) :
    (receiveWMin s self w ms).off b ≤ w.off b ∧
      ∀ m ∈ ms, some m.addr ≠ self → (receiveWMin s self w ms).off b ≤ (s.dsps m.dsp).wRx.off b := by
  induction ms generalizing w with
  | nil => exact ⟨le_refl _, by simp⟩
  | cons m ms ih =>
    simp only [List.mem_cons, forall_eq_or_imp] at hms ⊢
    obtain ⟨hm, hms⟩ := hms
    generalize hw' : (if some m.addr ≠ self ∧ cmxBuffHalf k ≤ (s.dsps m.dsp).wRx.off w then
      (s.dsps m.dsp).wRx else w) = w'
    -- the candidate after `m` is no later than the old one, nor than `m`'s pointer
    have hle : w'.off b ≤ w.off b ∧ (some m.addr ≠ self → w'.off b ≤ (s.dsps m.dsp).wRx.off b) := by
      subst hw'
      split
      · rename_i hc
        exact ⟨((Ptr.half_le_off_iff _ _ b (hm hc.1) hw).1 hc.2).le, fun _ => le_refl _⟩
      · rename_i hc
        refine ⟨le_refl _, fun hs => Nat.le_of_not_lt fun hlt => hc ⟨hs, ?_⟩⟩
        exact (Ptr.half_le_off_iff _ _ b (hm hs) hw).2 hlt
    have e : receiveWMin s self w (m :: ms) = receiveWMin s self w' ms := by rw [← hw']; rfl
    obtain ⟨ih₁, ih₂⟩ := ih hms w' (by omega)
    rw [e]
    exact ⟨ih₁.trans hle.1, fun hs => ih₁.trans (hle.2 hs), ih₂⟩

/-- The member loop ends on one of the pointers it compares. -/
theorem receiveWMin_mem (s : Cmx k) (self : Option Nat) (w : Ptr k) (ms : List ConfMember) :
    receiveWMin s self w ms = w ∨
      ∃ m ∈ ms, some m.addr ≠ self ∧ receiveWMin s self w ms = (s.dsps m.dsp).wRx := by
  induction ms generalizing w with
  | nil => exact .inl rfl
  | cons m ms ih =>
    simp only [receiveWMin]
    split
    · rename_i hc
      rcases ih (s.dsps m.dsp).wRx with h | ⟨m', hm', hs, h⟩
      · exact .inr ⟨m, List.mem_cons_self _ _, hc.1, h⟩
      · exact .inr ⟨m', List.mem_cons_of_mem _ hm', hs, h⟩
    · rcases ih w with h | ⟨m', hm', hs, h⟩
      · exact .inl h
      · exact .inr ⟨m', List.mem_cons_of_mem _ hm', hs, h⟩

/-- Within half a ring after a base `b`, the member loop ends on the earliest of the candidate and
the pointers of the other members: each of them is less than half a ring after it. -/
theorem receiveWMin_earliest (s : Cmx k) (self : Option Nat) (w b : Ptr k) (ms : List ConfMember)
    (hw : w.off b < cmxBuffHalf k)
    (hms : ∀ m ∈ ms, some m.addr ≠ self → (s.dsps m.dsp).wRx.off b < cmxBuffHalf k) :
    (receiveWMin s self w ms).off b < cmxBuffHalf k ∧
      w.off (receiveWMin s self w ms) < cmxBuffHalf k ∧
      ∀ m ∈ ms, some m.addr ≠ self → (s.dsps m.dsp).wRx.off (receiveWMin s self w ms) < cmxBuffHalf k := by
  obtain ⟨hle, hle'⟩ := receiveWMin_le s self b ms hms w hw
  refine ⟨by omega, ?_, fun m hm hs => ?_⟩
  · rw [Ptr.off_of_le _ _ b hle]; omega
  · have := hms m hm hs
    rw [Ptr.off_of_le _ _ b (hle' m hm hs)]; omega

/-- On an arc shorter than half the ring, from a base `b`, the member loop of lines 769-776 ends on
the earliest of the candidate `(W_rx + len) & CMX_BUFF_MASK` and the write pointers of the other
members, in every order of the chain; the step of lines 783-787 (`receiveWMax`) then takes the later
of `W_min` and the stored `W_max`. -/
theorem receiveWMin_arc (s : Cmx k) (self : Option Nat) (w b : Ptr k) (ms : List ConfMember)
    (hw : w.off b < cmxBuffHalf k)
    (hms : ∀ m ∈ ms, some m.addr ≠ self → (s.dsps m.dsp).wRx.off b < cmxBuffHalf k) :
    let wMin := receiveWMin s self w ms
    ((wMin = w ∨ ∃ m ∈ ms, some m.addr ≠ self ∧ wMin = (s.dsps m.dsp).wRx) ∧
      w.off wMin < cmxBuffHalf k ∧
      (∀ m ∈ ms, some m.addr ≠ self → (s.dsps m.dsp).wRx.off wMin < cmxBuffHalf k) ∧
      ∀ ms' : List ConfMember, ms'.Perm ms → receiveWMin s self w ms' = wMin) ∧
    ∀ wMax : Ptr k, wMax.off b < cmxBuffHalf k →
      let wMax' := receiveWMax wMin wMax
      (wMax' = wMin ∨ wMax' = wMax) ∧ wMax'.off wMin < cmxBuffHalf k ∧ wMax'.off wMax < cmxBuffHalf k := by
  dsimp only
  obtain ⟨hb, hw', hms'⟩ := receiveWMin_earliest s self w b ms hw hms
  have hS := cmxBuffHalf_pos k
  refine ⟨⟨receiveWMin_mem s self w ms, hw', hms', fun ms' hp => ?_⟩, fun wMax hx => ?_⟩
  · -- over the permuted chain the loop ends on a pointer with the same property: the same one
    obtain ⟨-, hw₂, hms₂⟩ := receiveWMin_earliest s self w b ms' hw fun m hm => hms m (hp.mem_iff.1 hm)
    apply Ptr.eq_of_off_lt_half
    · rcases receiveWMin_mem s self w ms' with h | ⟨m, hm, hs, h⟩ <;> rw [h]
      exacts [hw', hms' m (hp.mem_iff.1 hm) hs]
    · rcases receiveWMin_mem s self w ms with h | ⟨m, hm, hs, h⟩ <;> rw [h]
      exacts [hw₂, hms₂ m (hp.mem_iff.2 hm) hs]
  · unfold receiveWMax
    split
    · rename_i hc
      have hlt := (Ptr.half_le_off_iff _ _ b hb hx).1 hc
      refine ⟨.inr rfl, ?_, by rw [Ptr.off_self]; exact hS⟩
      rw [Ptr.off_of_le _ _ b hlt.le]; omega
    · rename_i hc
      have hle : wMax.off b ≤ (receiveWMin s self w ms).off b :=
        Nat.le_of_not_lt fun h => hc ((Ptr.half_le_off_iff _ _ b hb hx).2 h)
      refine ⟨.inl rfl, by rw [Ptr.off_self]; exact hS, ?_⟩
      rw [Ptr.off_of_le _ _ b hle]; omega

/-- Two members, and the arc from 0 in a ring of 32 bytes. -/
theorem receiveWMin_arc_zero :
    let s : Cmx 4 := Cmx.zero fun _ => 0
    let ms : List ConfMember := [⟨1, 0⟩, ⟨2, 1⟩]
    (3 : Ptr 4).off 0 < cmxBuffHalf 4 ∧
      (∀ m ∈ ms, some m.addr ≠ some 1 → (s.dsps m.dsp).wRx.off 0 < cmxBuffHalf 4) ∧
      let wMin := receiveWMin s (some 1) 3 ms
      ((wMin = 3 ∨ ∃ m ∈ ms, some m.addr ≠ some 1 ∧ wMin = (s.dsps m.dsp).wRx) ∧
        (3 : Ptr 4).off wMin < cmxBuffHalf 4 ∧
        (∀ m ∈ ms, some m.addr ≠ some 1 → (s.dsps m.dsp).wRx.off wMin < cmxBuffHalf 4) ∧
        ∀ ms' : List ConfMember, ms'.Perm ms → receiveWMin s (some 1) 3 ms' = wMin) ∧
      ∀ wMax : Ptr 4, wMax.off 0 < cmxBuffHalf 4 →
        let wMax' := receiveWMax wMin wMax
        (wMax' = wMin ∨ wMax' = wMax) ∧ wMax'.off wMin < cmxBuffHalf 4 ∧
          wMax'.off wMax < cmxBuffHalf 4 :=
  ⟨by decide, by decide, receiveWMin_arc _ _ _ _ _ (by decide) (by decide)⟩

/-- Two channels join conference 1 and the first sends a one-byte frame.  The other member has
written nothing, so `W_min` stays at 0, and `W_max`, the later of `W_min` and the stored `W_max`,
stays there too: the writer is one byte ahead of `W_min` in a window of width 0. -/
theorem dspCmxReceive_writer_outside_window :
    ∃ s ds, Trace tab₀ noTone (Cmx.zero fun _ => 0 : Cmx 13)
        [.cmx 0 1 true ⟨true, true⟩, .cmx 1 1 true ⟨true, true⟩, .receive 0 [0]] ds s ∧
      ∃ c ∈ s.confList, c.mlist.map (·.dsp) = [0, 1] ∧
        (s.dsps 0).wRx.off c.wMin = 1 ∧ c.wMax.off c.wMin = 0 := by
  exact Trace.exists_of_run 0 (fun s _ => s.confList.any fun c =>
      c.mlist.map (·.dsp) == [0, 1] && (s.dsps 0).wRx.off c.wMin == 1 && c.wMax.off c.wMin == 0)
    (fun s _ h => by simpa [List.any_eq_true, and_assoc] using h) (by decide)

/-! ### The overflow guard -/

/-- A channel in no conference writes every frame that fits: "if we are alone, we are always the
fastest and the slowest, so we always write" (line 802). -/
theorem dspCmxReceive_alone (tab : AudioTables) (s : Cmx k) (d : Nat) (data : List UInt8)
    (hc : s.dspConf d = none) (h₁ : 1 ≤ data.length) (h₂ : data.length < cmxBuffHalf k / 4) :
    dspCmxReceive tab s d data =
      s.setDsp d { s.dsps d with
        largest := max (s.dsps d).largest (2 * data.length)
        rxBuff := writeRing (s.dsps d).rxBuff (s.dsps d).wRx data.length data
        wRx := (s.dsps d).wRx.adv data.length } := by
  have h₁' : ¬ data.length < 1 := by omega
  have h₂' : ¬ cmxBuffHalf k / 4 ≤ data.length := by omega
  simp only [dspCmxReceive, h₁', h₂', if_false, hc, Ptr.off_self, Nat.zero_le, if_true,
    raiseLargest_eq]

/-- Whether a frame is written, and where the write pointer goes, depends on the frame's length
only. -/
theorem dspCmxReceive_wRx_length (tab : AudioTables) (s : Cmx k) (d : Nat) (data data' : List UInt8)
    (h : data'.length = data.length) :
    ((dspCmxReceive tab s d data').dsps d).wRx = ((dspCmxReceive tab s d data).dsps d).wRx := by
  simp only [dspCmxReceive, h]
  generalize raiseLargest (s.dsps d) data.length = x
  cases s.dspConf d <;>
    simp only [apply_ite (fun s : Cmx k => (s.dsps d).wRx), Cmx.setDsp_dsps, if_true]

/-- Channel 1 writes five frames of 3 bytes while channel 0 stays silent, so the stored `W_max`
stays at 0; then channel 0 leaves.  Channel 1, now the only member and so the slowest, is refused
every frame that fits (lengths 1 to 3, `CMX_BUFF_SIZE` 32): its new pointer lies half a ring or
more after the stale `W_max`, which is therefore taken as the later one, and the guard measures the
way back round the ring. -/
theorem dspCmxReceive_stale_wMax_blocks :
    ∃ s ds, Trace tab₀ noTone (Cmx.zero fun _ => 0 : Cmx 4)
        [.cmx 0 1 true ⟨true, true⟩, .cmx 1 1 true ⟨true, true⟩,
         .receive 1 [0, 0, 0], .receive 1 [0, 0, 0], .receive 1 [0, 0, 0], .receive 1 [0, 0, 0],
         .receive 1 [0, 0, 0], .cmx 0 0 true ⟨true, true⟩] ds s ∧
      ∃ c ∈ s.confList, c.mlist.map (·.dsp) = [1] ∧
        ∀ data : List UInt8, 1 ≤ data.length → data.length < cmxBuffHalf 4 / 4 →
          ((dspCmxReceive tab₀ s 1 data).dsps 1).wRx = (s.dsps 1).wRx := by
  refine (Trace.exists_of_run 0 (P := fun s _ => ∃ c ∈ s.confList,
      c.mlist.map (·.dsp) = [1] ∧ ∀ n ∈ [1, 2, 3],
        ((dspCmxReceive tab₀ s 1 (List.replicate n 0)).dsps 1).wRx = (s.dsps 1).wRx)
    (fun s _ => s.confList.any fun c => c.mlist.map (·.dsp) == [1] && [1, 2, 3].all fun n =>
      ((dspCmxReceive tab₀ s 1 (List.replicate n 0)).dsps 1).wRx == (s.dsps 1).wRx)
    (fun s _ h => by simpa [List.any_eq_true] using h) (by decide)).imp fun s => Exists.imp fun ds =>
      And.imp_right fun ⟨c, hc, hm, hn⟩ => ⟨c, hc, hm, fun data h₁ h₂ => ?_⟩
  -- every length that fits is among the three replayed
  have hlen : data.length ∈ [1, 2, 3] := by
    have : cmxBuffHalf 4 / 4 = 4 := rfl
    simp only [List.mem_cons, List.mem_singleton, List.not_mem_nil, or_false]; omega
  rw [← hn _ hlen]
  exact dspCmxReceive_wRx_length _ _ _ _ _ (List.length_replicate _ _).symm

/-! ### The conference buffer -/

theorem confNext_mem {a : Nat} {l : List (Conference k)} {n : Conference k}
    (h : confNext a l = some n) : n ∈ l := by
  induction l with
  | nil => cases h
  | cons c cs ih =>
    simp only [confNext] at h
    split at h
    · exact List.mem_cons_of_mem _ (List.mem_of_mem_head? h)
    · exact List.mem_cons_of_mem _ (ih h)

/-- `conf->next->next` exists only when `Conf_list`, whose addresses are distinct, holds three
conferences or more. -/
theorem confNext_confNext_length {a : Nat} {l : List (Conference k)} {n m : Conference k}
    (hl : (l.map (·.addr)).Nodup) (h₁ : confNext a l = some n) (h₂ : confNext n.addr l = some m) :
    3 ≤ l.length := by
  induction l with
  | nil => cases h₁
  | cons c cs ih =>
    simp only [List.map_cons, List.nodup_cons, List.mem_map, not_exists, not_and] at hl
    simp only [confNext] at h₁ h₂
    split at h₁
    · obtain ⟨cs', rfl⟩ := List.head?_eq_some_iff.1 h₁
      rw [if_neg (fun e => hl.1 n (List.mem_cons_self _ _) e.symm)] at h₂
      simp only [confNext, if_true, List.head?_eq_some_iff] at h₂
      obtain ⟨_, rfl⟩ := h₂
      simp
    · rw [if_neg (fun e => hl.1 n (confNext_mem h₁) e.symm)] at h₂
      have := ih hl.2 h₁ h₂
      simp only [List.length_cons]; omega

/-- With at most two conferences in `Conf_list`, `dsp_cmx_receive` leaves every conference buffer as
it was: lines 816-838 run only when two more conferences follow the channel's in `Conf_list`. -/
theorem dspCmxReceive_confBuff (tab : AudioTables) (s : Cmx k) (d : Nat) (data : List UInt8)
    (hnd : (s.confList.map (·.addr)).Nodup) (hl : s.confList.length ≤ 2) :
    (dspCmxReceive tab s d data).confList.map (·.confBuff) = s.confList.map (·.confBuff) := by
  simp only [dspCmxReceive]
  generalize raiseLargest (s.dsps d) data.length = x
  cases hc : s.dspConf d with
  | none =>
    simp only [apply_ite (fun s : Cmx k => s.confList.map (·.confBuff)), Cmx.setDsp_confList, ite_self]
  | some c =>
    have hmix : ((confNext c.addr s.confList).bind fun n => confNext n.addr s.confList).isSome = false := by
      cases h₁ : confNext c.addr s.confList with
      | none => rfl
      | some n =>
        cases h₂ : confNext n.addr s.confList with
        | none => simp [h₂]
        | some m => have := confNext_confNext_length hnd h₁ h₂; omega
    -- the only record at the channel's conference's address is that conference
    have hsame : ∀ c' ∈ s.confList, c'.addr = c.addr → c' = c := fun c' hc' e =>
      List.inj_on_of_nodup_map hnd hc' (Cmx.dspConf_mem hc) e
    have hbuf : ∀ c' : Conference k, c'.confBuff = c.confBuff →
        (s.setConf c.addr c').confList.map (·.confBuff) = s.confList.map (·.confBuff) := by
      intro c' e
      simp only [Cmx.setConf_confList, List.map_map]
      refine List.map_congr_left fun c'' hc'' => ?_
      simp only [Function.comp]
      split
      · rename_i e'; rw [hsame c'' hc'' e', e]
      · rfl
    simp only [hmix, Bool.false_eq_true, if_false,
      apply_ite (fun s : Cmx k => s.confList.map (·.confBuff)), Cmx.setDsp_confList, hbuf, ite_self]

/-- Three channels join conference 1, the only conference, and each sends the byte 7.  Every member
has written ring position 0, which lies outside the now empty window, and the members' samples
there add up to 21; the conference buffer still holds the 0 it was cleared to when the second
member joined.  In general, no frame reaches a conference buffer while `Conf_list` holds two
conferences or fewer. -/
theorem dspCmxReceive_three_members_unmixed :
    (∀ (tab : AudioTables) (s : Cmx k) (d : Nat) (data : List UInt8),
      (s.confList.map (·.addr)).Nodup → s.confList.length ≤ 2 →
      (dspCmxReceive tab s d data).confList.map (·.confBuff) = s.confList.map (·.confBuff)) ∧
    ∃ s ds, Trace tab₀ noTone (Cmx.zero fun _ => 0 : Cmx 13)
        [.cmx 0 1 true ⟨true, true⟩, .cmx 1 1 true ⟨true, true⟩, .cmx 2 1 true ⟨true, true⟩,
         .receive 0 [7], .receive 1 [7], .receive 2 [7]] ds s ∧
      ∃ c ∈ s.confList, c.mlist.map (·.dsp) = [0, 1, 2] ∧ c.wMin = c.wMax ∧
        (∀ m ∈ c.mlist, (s.dsps m.dsp).wRx = 1) ∧
        (c.mlist.map fun m => tab₀.decodeLaw (s.dsps m.dsp).ulaw ((s.dsps m.dsp).rxBuff 0)).sum = 21 ∧
        c.confBuff 0 = 0 := by
  refine ⟨dspCmxReceive_confBuff, ?_⟩
  exact Trace.exists_of_run 0 (fun s _ => s.confList.any fun c =>
      c.mlist.map (·.dsp) == [0, 1, 2] && c.wMin == c.wMax &&
        c.mlist.all (fun m => (s.dsps m.dsp).wRx == 1) &&
        (c.mlist.map fun m => tab₀.decodeLaw (s.dsps m.dsp).ulaw ((s.dsps m.dsp).rxBuff 0)).sum == 21 &&
        c.confBuff 0 == 0)
    (fun s _ h => by simpa [List.any_eq_true, List.all_eq_true, and_assoc] using h) (by decide)

end MisdnDsp
