import MisdnDsp.Cmx.Relay
import MisdnDsp.Cmx.Links

/-!
# Mixing a conference whose members write in step

With two more conferences after the channel's in `Conf_list`, lines 816-838 of `dsp_cmx_receive`
put the decoded frame into `conf_buff`: added to what is there up to the old `W_max`, written over
from there on (the comment of lines 818-819).  `W_max` starts from `W_min`, the slowest writer's end
(lines 760-787), not from the highest write pointer that line 781 announces; so while the members
write in step at `w` it stays at `w` until the last of them has written, and every writer finds the
old `W_max` at its own `W_rx`: the adding loop never runs.

* `mixConfBuff_overwrite`: a mixing started at the old `W_max` writes the decoded frame over the
  buffer;
* `receiveWMin_inStep`: among pointers at `w` and at `w + n`, the member loop ends on `w` while a
  member other than the writer is still there, and on `w + n` otherwise;
* `Cmx.InStep.receive`: one reception keeps the members in step and leaves the writer's decoded
  frame over `[w, w + n)`; `Cmx.InStep.mixRound` carries that over a round of receptions;
* `mixRound_overwrites`: when every member's card delivers one frame of `n` bytes, in any order,
  `conf_buff` over `[w, w + n)` ends holding the last frame alone, and the members are in step
  again at `w + n`, ready for the next round;
* `mixRound_heard`: a member of three or more then hears the last frame less its own, where the
  send path of lines 998-1030 means the sum of the others.
-/

namespace MisdnDsp

variable {k : Nat}

/-! ### The test of line 817 -/

/-- `conf->next` over a list whose records keep their addresses. -/
theorem confNext_map {f : Conference k → Conference k} (hf : ∀ c, (f c).addr = c.addr) (a : Nat)
    (l : List (Conference k)) : confNext a (l.map f) = (confNext a l).map f := by
  induction l with
  | nil => rfl
  | cons c cs ih => by_cases h : c.addr = a <;> simp [confNext, h, hf, ih, List.head?_map]

/-- Replacing the conference at `a` by one at the same address keeps the test. -/
theorem Cmx.mixes_setConf (s : Cmx k) {a : Nat} {c : Conference k} (hc : c.addr = a) (b : Nat) :
    (s.setConf a c).mixes b = s.mixes b := by
  have hf : ∀ c' : Conference k, (if c'.addr = a then c else c').addr = c'.addr := fun c' => by
    split <;> simp_all
  simp only [Cmx.mixes, Cmx.setConf_confList, confNext_map hf]
  cases confNext b s.confList <;> simp [confNext_map hf, hf]

/-! ### The mixing loops -/

/-- The writing loop of lines 833-837, pointwise: the `|data|` indices from `w` on hold the decoded
frame, and the others are as they were. -/
theorem mixConfBuff_write (dec : UInt8 → Int) (ww : Ptr k) (c : Ptr k → Int) (w : Ptr k)
    (data : List UInt8) (h : data.length ≤ cmxBuffSize k) (p : Ptr k) :
    mixConfBuff dec ww c w false data p =
      if p.off w < data.length then dec (data.getD (p.off w) 0) else c p := by
  induction data generalizing c w with
  | nil => simp [mixConfBuff]
  | cons b bs ih =>
    simp only [List.length_cons] at h
    simp only [mixConfBuff, Bool.false_and, Bool.false_eq_true, if_false]
    rw [ih _ _ (by omega)]
    by_cases hp : p = w
    · subst hp
      have e : p.off p.next = cmxBuffSize k - 1 := by
        rw [show p.next = p.adv 1 by simpa using Ptr.next_adv p 0, Ptr.off_adv_ahead p one_pos (by omega)]
      simp only [e, if_neg (show ¬cmxBuffSize k - 1 < bs.length by omega), Function.update_same,
        Ptr.off_self, List.length_cons, Nat.zero_lt_succ, if_true, List.getD_cons_zero]
    · have h1 := Ptr.off_next p w hp
      have h2 : p.off w ≠ 0 := fun h0 => hp (by rw [← Ptr.adv_off p w, h0, Ptr.adv_zero])
      obtain ⟨j, hj⟩ : ∃ j, p.off w = j + 1 := ⟨p.off w - 1, by omega⟩
      simp only [h1, hj, Function.update_noteq hp, List.length_cons, Nat.add_sub_cancel,
        List.getD_cons_succ, Nat.add_lt_add_iff_right]

/-- Started at the old `W_max`, the adding loop of lines 827-832 stops before its first byte, and
the frame is written over the buffer. -/
theorem mixConfBuff_overwrite (dec : UInt8 → Int) (w : Ptr k) (c : Ptr k → Int) (data : List UInt8)
    (h : data.length ≤ cmxBuffSize k) (p : Ptr k) :
    mixConfBuff dec w c w true data p =
      if p.off w < data.length then dec (data.getD (p.off w) 0) else c p := by
  rw [← mixConfBuff_write dec w c w data h p]
  cases data <;> simp [mixConfBuff]

/-! ### `W_min` of members in step -/

/-- Among members at `w` and at `w + n`, the member loop from the candidate `w + n` ends on `w`
when a member other than the writer is still there, and on `w + n` otherwise. -/
theorem receiveWMin_inStep (s : Cmx k) (self : Option Nat) (w : Ptr k) {n : Nat} (hn : n < cmxBuffHalf k)
    (ms : List ConfMember)
    (hms : ∀ m ∈ ms, some m.addr ≠ self → (s.dsps m.dsp).wRx = w ∨ (s.dsps m.dsp).wRx = w.adv n) :
    receiveWMin s self (w.adv n) ms =
      if ∃ m ∈ ms, some m.addr ≠ self ∧ (s.dsps m.dsp).wRx = w then w else w.adv n := by
  have hS := cmxBuffSize_eq k
  have hn' : (w.adv n).off w = n := Ptr.off_adv w n (by omega)
  split
  · rename_i hw
    obtain ⟨m, hm, hs, he⟩ := hw
    have hoff : ∀ m ∈ ms, some m.addr ≠ self → (s.dsps m.dsp).wRx.off w < cmxBuffHalf k := by
      intro m hm hs
      rcases hms m hm hs with h | h <;> rw [h]
      exacts [by rw [Ptr.off_self]; exact cmxBuffHalf_pos k, by rw [hn']; exact hn]
    have := (receiveWMin_le s self w ms hoff (w.adv n) (by rw [hn']; exact hn)).2 m hm hs
    rw [he, Ptr.off_self, Nat.le_zero] at this
    rw [← Ptr.adv_off (receiveWMin s self (w.adv n) ms) w, this, Ptr.adv_zero]
  · rename_i hw
    rcases receiveWMin_mem s self (w.adv n) ms with h | ⟨m, hm, hs, h⟩
    · exact h
    · rw [h]
      exact (hms m hm hs).resolve_left fun he => hw ⟨m, hm, hs, he⟩

/-- `dsp_cmx_receive` writes no channel but the receiving one. -/
theorem dspCmxReceive_dsps_of_ne (tab : AudioTables) (s : Cmx k) {d e : Nat} {data : List UInt8}
    (h : e ≠ d) : (dspCmxReceive tab s d data).dsps e = s.dsps e := by
  obtain ⟨x, hs | ⟨c, c', -, hs, -⟩, -⟩ := dspCmxReceive_shape (rfl : dspCmxReceive tab s d data = _) <;>
    rw [hs] <;> simp [h]

/-- Lines 998-1030: in a conference of three or more, with echo off, a member hears `conf_buff` less
its own samples. -/
theorem sendMix_many_snd (tab : AudioTables) (s : Cmx k) (d : Nat) {c : Conference k}
    (hc : s.dspConf d = some c) (h3 : 3 ≤ c.mlist.length) (hecho : (s.dsps d).echo = false) :
    (sendMix tab s d).2 = fun r => encodeSample (tab.encodeLaw (s.dsps d).ulaw)
      (c.confBuff r - tab.decodeLaw (s.dsps d).ulaw ((s.dsps d).rxBuff r)) := by
  match hm : c.mlist with
  | [] | [_] | [_, _] => simp [hm] at h3
  | _ :: _ :: _ :: _ => simp [sendMix, hc, hm, hecho]

/-! ### A round of receptions -/

/-- The members of the conference at `a`, whose chain is `ms`, write in step, and the conference
mixes: the channels in `todo` have written up to `w`, the other members up to `w + n`, and `W_max`
is at `w` until all of them have written, then at `w + n`. -/
structure Cmx.InStep (s : Cmx k) (a : Nat) (ms : List ConfMember) (w : Ptr k) (n : Nat)
    (todo : List Nat) : Prop where
  conf : ∃ c, s.confAt a = some c ∧ c.mlist = ms ∧ c.wMax = if todo = [] then w.adv n else w
  node : ∀ m ∈ ms, (s.dsps m.dsp).conf = some a ∧ (s.dsps m.dsp).member = some m.addr
  wRx : ∀ m ∈ ms, (s.dsps m.dsp).wRx = if m.dsp ∈ todo then w else w.adv n
  nodup : (ms.map (·.addr)).Nodup ∧ (ms.map (·.dsp)).Nodup
  todo : todo.Nodup ∧ ∀ d ∈ todo, ∃ m ∈ ms, m.dsp = d
  mixes : s.mixes a = true

/-- A round: the cards of the channels deliver their frames in the order of the list. -/
def mixRound (tab : AudioTables) (s : Cmx k) (ws : List (Nat × List UInt8)) : Cmx k :=
  ws.foldl (fun s p => dspCmxReceive tab s p.1 p.2) s

/-- A round is a run of the CMX. -/
theorem mixRound_trace (tab : AudioTables) (toneCopy : Nat → List UInt8) (s : Cmx k)
    (ws : List (Nat × List UInt8)) :
    Trace tab toneCopy s (ws.map fun p => .receive p.1 p.2) [] (mixRound tab s ws) := by
  induction ws generalizing s with
  | nil => exact Trace.nil
  | cons p ps ih =>
    simpa using Trace.cons (show step tab toneCopy 0 s (.receive p.1 p.2) = some (_, [], .void) from rfl) (ih _)

/-- A round leaves the channels that deliver no frame in it as they were. -/
theorem mixRound_dsps_of_not_mem (tab : AudioTables) (s : Cmx k) (ws : List (Nat × List UInt8))
    {e : Nat} (he : e ∉ ws.map Prod.fst) : (mixRound tab s ws).dsps e = s.dsps e := by
  induction ws generalizing s with
  | nil => rfl
  | cons p ps ih =>
    simp only [List.map_cons, List.mem_cons, not_or] at he
    exact (ih _ he.2).trans (dspCmxReceive_dsps_of_ne tab s he.1)

section InStep

variable {s : Cmx k} {a : Nat} {ms : List ConfMember} {w : Ptr k} {n : Nat} {todo : List Nat}

/-- A member other than the writer's node is still at `w` exactly when another channel has yet to
write. -/
theorem Cmx.InStep.other_at_iff (hs : s.InStep a ms w n todo) (hn₀ : 0 < n) (hn : n < cmxBuffSize k)
    {md : ConfMember} (hmd : md ∈ ms) :
    (∃ m ∈ ms, some m.addr ≠ some md.addr ∧ (s.dsps m.dsp).wRx = w) ↔ todo.erase md.dsp ≠ [] := by
  have hne : w.adv n ≠ w := fun h => by
    have := Ptr.off_adv w n hn
    rw [h, Ptr.off_self] at this; omega
  constructor
  · rintro ⟨m, hm, hma, hw⟩
    have hdsp : m.dsp ≠ md.dsp := fun e => hma (by rw [List.inj_on_of_nodup_map hs.nodup.2 hm hmd e])
    rw [hs.wRx m hm] at hw
    have : m.dsp ∈ todo := by_contra fun h => hne (by rwa [if_neg h] at hw)
    exact List.ne_nil_of_mem ((List.mem_erase_of_ne hdsp).2 this)
  · intro h
    obtain ⟨e, he⟩ := List.exists_mem_of_ne_nil _ h
    obtain ⟨hed, het⟩ := hs.todo.1.mem_erase_iff.1 he
    obtain ⟨m, hm, rfl⟩ := hs.todo.2 _ het
    refine ⟨m, hm, fun ha => hed ?_, by rw [hs.wRx m hm, if_pos het]⟩
    rw [List.inj_on_of_nodup_map hs.nodup.1 hm hmd (Option.some_inj.1 ha)]

/-- One reception of a round: the writer `d`, still at `w`, moves to `w + n`, `W_max` stays at `w`
while another member is there, and `conf_buff` over `[w, w + n)` holds the writer's decoded frame. -/
theorem Cmx.InStep.receive (tab : AudioTables) (hs : s.InStep a ms w n todo) {d : Nat} (hd : d ∈ todo)
    {f : List UInt8} (hf : f.length = n) (h₁ : 1 ≤ n) (h₂ : n < cmxBuffHalf k / 4) :
    (dspCmxReceive tab s d f).InStep a ms w n (todo.erase d) ∧
      (∃ L, (dspCmxReceive tab s d f).dsps d = { s.dsps d with
        rxBuff := writeRing (s.dsps d).rxBuff w n f, wRx := w.adv n, largest := L }) ∧
      ∃ c, (dspCmxReceive tab s d f).confAt a = some c ∧ c.wMin = c.wMax ∧
        ∀ i < n, c.confBuff (w.adv i) = tab.decodeLaw (s.dsps d).ulaw (f.getD i 0) := by
  have hS := cmxBuffSize_eq k
  obtain ⟨c, hca, hml, hmax⟩ := hs.conf
  obtain ⟨md, hmd, rfl⟩ := hs.todo.2 d hd
  obtain ⟨hconf, hmem⟩ := hs.node md hmd
  have ha := Cmx.confAt_addr hca
  have hw : (s.dsps md.dsp).wRx = w := by rw [hs.wRx md hmd, if_pos hd]
  rw [if_neg (List.ne_nil_of_mem hd)] at hmax
  have hc : s.dspConf md.dsp = some c := by simp [Cmx.dspConf, hconf, hca]
  -- the member loop ends on `w` while another channel has yet to write
  have hmin : receiveWMin s (some md.addr) (w.adv n) ms =
      if todo.erase md.dsp = [] then w.adv n else w := by
    rw [receiveWMin_inStep s _ w (by omega) ms fun m hm _ => by rw [hs.wRx m hm]; split <;> simp]
    simp only [hs.other_at_iff (by omega) (by omega) hmd, ite_not]
  have hlt : (if todo.erase md.dsp = [] then w.adv n else w).off w < cmxBuffHalf k := by
    split
    · rw [Ptr.off_adv w n (by omega)]; omega
    · rw [Ptr.off_self]; exact cmxBuffHalf_pos k
  obtain ⟨c', L, e, ha', hm, hn, hx, hb⟩ := dspCmxReceive_conf tab hc
    (by rw [hf]; omega : 1 ≤ f.length) (by omega) (by rw [hmem, hw, hf, hml, hmin, hmax]; exact hlt)
  rw [hmem, hw, hf, hml, hmin] at hn
  rw [ha, hs.mixes, if_pos rfl, hmax, hw] at hb
  rw [e, ha]
  refine ⟨⟨⟨c', Cmx.confAt_setConf hca (ha'.trans ha), hm.trans hml, hx.trans hn⟩, fun m hm => ?_,
    fun m hm => ?_, hs.nodup, ⟨hs.todo.1.erase _, fun e he => hs.todo.2 e (List.mem_of_mem_erase he)⟩,
    (Cmx.mixes_setConf s (ha'.trans ha) a).trans hs.mixes⟩, ⟨L, by simp [hw, hf]⟩, c',
    Cmx.confAt_setConf hca (ha'.trans ha), hx.symm, fun i hi => ?_⟩
  · have hn := hs.node m hm
    by_cases h : m.dsp = md.dsp
    · rw [h] at hn; simp [h, hn]
    · simp [h, hn]
  · by_cases h : m.dsp = md.dsp
    · simp [h, hw, hf, hs.todo.1.not_mem_erase]
    · simp [h, hs.wRx m hm, List.mem_erase_of_ne h]
  · rw [hb, mixConfBuff_overwrite _ _ _ _ (by omega), Ptr.off_adv w i (by omega), if_pos (by omega)]

/-- Over a round in which the channels yet to write deliver one frame each, in any order, the
members stay in step, and the last frame received is what `conf_buff` holds over `[w, w + n)`. -/
theorem Cmx.InStep.mixRound (tab : AudioTables) (hs : s.InStep a ms w n todo)
    (ws : List (Nat × List UInt8)) (hws : (ws.map Prod.fst).Perm todo) (hf : ∀ p ∈ ws, p.2.length = n)
    (h₁ : 1 ≤ n) (h₂ : n < cmxBuffHalf k / 4) :
    (mixRound tab s ws).InStep a ms w n [] ∧
      (∀ x fx, (x, fx) ∈ ws → ∃ L, (mixRound tab s ws).dsps x = { s.dsps x with
        rxBuff := writeRing (s.dsps x).rxBuff w n fx, wRx := w.adv n, largest := L }) ∧
      ∀ d f, ws.getLast? = some (d, f) → ∃ c, (mixRound tab s ws).confAt a = some c ∧
        c.wMin = c.wMax ∧ ∀ i < n, c.confBuff (w.adv i) = tab.decodeLaw (s.dsps d).ulaw (f.getD i 0) := by
  induction ws generalizing s todo with
  | nil =>
    obtain rfl := hws.symm.eq_nil
    exact ⟨hs, by simp, by simp⟩
  | cons p ps ih =>
    obtain ⟨d, f⟩ := p
    have hd : d ∈ todo := hws.subset (List.mem_cons_self _ _)
    have hnd : d ∉ ps.map Prod.fst := (List.nodup_cons.1 (hws.nodup_iff.2 hs.todo.1)).1
    obtain ⟨hs', ⟨L, hL⟩, hbuf⟩ := hs.receive tab hd (hf _ (List.mem_cons_self _ _)) h₁ h₂
    obtain ⟨hend, hdsps, hlast⟩ :=
      ih hs' (by simpa using hws.erase d) (fun p hp => hf p (List.mem_cons_of_mem _ hp))
    refine ⟨hend, fun x fx hx => ?_, fun d' f' hl => ?_⟩
    · rcases List.mem_cons.1 hx with e | hx
      · obtain ⟨rfl, rfl⟩ := Prod.mk.inj e
        exact ⟨L, (mixRound_dsps_of_not_mem tab _ ps hnd).trans hL⟩
      · have hxd : x ≠ d := fun h => hnd (h ▸ List.mem_map_of_mem Prod.fst hx)
        rw [← dspCmxReceive_dsps_of_ne tab s hxd]
        exact hdsps x fx hx
    · cases ps with
      | nil =>
        obtain ⟨rfl, rfl⟩ : d = d' ∧ f = f' := by simpa using hl
        exact hbuf
      | cons q qs =>
        have hl' : (q :: qs).getLast? = some (d', f') := by simpa using hl
        have hdd : d' ≠ d := fun h => hnd (h ▸ List.mem_map_of_mem Prod.fst (List.mem_of_getLast?_eq_some hl'))
        rw [← dspCmxReceive_dsps_of_ne tab s hdd]
        exact hlast d' f' hl'

end InStep

/-- A round in a mixing conference whose members write in step at `w`, with `W_max` at `w`: each
member's card delivers one frame of `n` bytes, in any order.  `conf_buff` over `[w, w + n)` ends
holding the last frame alone, decoded in its channel's law, where lines 818-819 announce the sum
of the members' samples; the members are then in step at `w + n`, with `W_max` there, ready for the
next round whatever its length. -/
theorem mixRound_overwrites (tab : AudioTables) {s : Cmx k} {a : Nat} {ms : List ConfMember}
    {w : Ptr k} {n : Nat} (hs : s.InStep a ms w n (ms.map (·.dsp))) (ws : List (Nat × List UInt8))
    (hws : (ws.map Prod.fst).Perm (ms.map (·.dsp))) (hf : ∀ p ∈ ws, p.2.length = n)
    (h₁ : 1 ≤ n) (h₂ : n < cmxBuffHalf k / 4) {d : Nat} {f : List UInt8}
    (hl : ws.getLast? = some (d, f)) :
    (∃ c, (mixRound tab s ws).confAt a = some c ∧
      ∀ i < n, c.confBuff (w.adv i) = tab.decodeLaw (s.dsps d).ulaw (f.getD i 0)) ∧
    ∀ n', (mixRound tab s ws).InStep a ms (w.adv n) n' (ms.map (·.dsp)) := by
  obtain ⟨hend, -, hlast⟩ := hs.mixRound tab ws hws hf h₁ h₂
  have hne : ms.map (·.dsp) ≠ [] := fun h => by
    rw [h, List.perm_nil, List.map_eq_nil_iff] at hws
    simp [hws] at hl
  obtain ⟨c, hca, hml, hmax⟩ := hend.conf
  refine ⟨(hlast d f hl).imp fun c h => ⟨h.1, h.2.2⟩,
    fun n' => ⟨⟨c, hca, hml, by rw [hmax, if_pos rfl, if_neg hne]⟩, hend.node,
    fun m hm => ?_, hend.nodup, ⟨hs.todo.1, fun d hd => by simpa using hd⟩, hend.mixes⟩⟩
  rw [hend.wRx m hm, if_neg (List.not_mem_nil _), if_pos (List.mem_map_of_mem _ hm)]

/-- Five joins: channels 0, 1 and 2 into conference 1, and channels 9 and 8 into conferences 2 and 3,
which follow it in `Conf_list`. -/
def joinOps : List Op :=
  [.cmx 0 1 true ⟨true, true⟩, .cmx 9 2 true ⟨true, true⟩, .cmx 8 3 true ⟨true, true⟩,
   .cmx 1 1 true ⟨true, true⟩, .cmx 2 1 true ⟨true, true⟩]

/-- The registry after `joinOps`. -/
def joinedThree : Cmx 13 :=
  ((run tab₀ noTone 0 (Cmx.zero fun _ => 0) joinOps).map (·.1)).getD (Cmx.zero fun _ => 0)

/-- The nodes of conference 1, at address 1. -/
def threeNodes : List ConfMember := [⟨2, 0⟩, ⟨7, 1⟩, ⟨8, 2⟩]

/-- The three members each deliver one byte: 7, 5 and 3. -/
def mixFrames : List (Nat × List UInt8) := [(0, [7]), (1, [5]), (2, [3])]

theorem joinedThree_inStep : joinedThree.InStep 1 threeNodes 0 1 (threeNodes.map (·.dsp)) :=
  ⟨⟨_, rfl, rfl, rfl⟩, by decide, by decide, by decide, by decide, rfl⟩

theorem mixRound_overwrites_joinedThree :
    joinedThree.InStep 1 threeNodes 0 1 (threeNodes.map (·.dsp)) ∧
      (mixFrames.map Prod.fst).Perm (threeNodes.map (·.dsp)) ∧ (∀ p ∈ mixFrames, p.2.length = 1) ∧
      1 < cmxBuffHalf 13 / 4 ∧ mixFrames.getLast? = some (2, [3]) ∧
      ((∃ c, (mixRound tab₀ joinedThree mixFrames).confAt 1 = some c ∧
        ∀ i < 1, c.confBuff ((0 : Ptr 13).adv i) =
          tab₀.decodeLaw (joinedThree.dsps 2).ulaw ([3].getD i 0)) ∧
      ∀ n', (mixRound tab₀ joinedThree mixFrames).InStep 1 threeNodes ((0 : Ptr 13).adv 1) n'
        (threeNodes.map (·.dsp))) :=
  have hf : ∀ p ∈ mixFrames, p.2.length = 1 := by decide
  ⟨joinedThree_inStep, List.Perm.refl _, hf, by decide, rfl,
    mixRound_overwrites tab₀ joinedThree_inStep mixFrames (List.Perm.refl _) hf le_rfl (by decide) rfl⟩

/-- After such a round in a conference of three or more, a member `x` with no tx data, no tone and
echo off, whose rx ring was read up to `w`, fetches a frame of `n` bytes.  Lines 998-1030 subtract
its own samples from `conf_buff`, meant to leave the sum of the other members' samples; what it
hears at each position is the last frame received less its own, and the last member to deliver
hears `encode(0)` throughout. -/
theorem mixRound_heard (tab : AudioTables) (toneCopy : Nat → List UInt8) {s : Cmx k} {a : Nat}
    {ms : List ConfMember} {w : Ptr k} {n : Nat} (hs : s.InStep a ms w n (ms.map (·.dsp)))
    (h3 : 3 ≤ ms.length) (ws : List (Nat × List UInt8)) (hws : (ws.map Prod.fst).Perm (ms.map (·.dsp)))
    (hf : ∀ p ∈ ws, p.2.length = n) (h₁ : 1 ≤ n) (h₂ : n < cmxBuffHalf k / 4) {d : Nat}
    {f : List UInt8} (hl : ws.getLast? = some (d, f)) {x : Nat} {fx : List UInt8} (hx : (x, fx) ∈ ws)
    (hsync : (s.dsps x).SyncedAt w) (hecho : (s.dsps x).echo = false) :
    (dspCmxSend tab toneCopy (mixRound tab s ws) x n).1 = (List.range n).map fun i =>
      encodeSample (tab.encodeLaw (s.dsps x).ulaw)
        (tab.decodeLaw (s.dsps d).ulaw (f.getD i 0) - tab.decodeLaw (s.dsps x).ulaw (fx.getD i 0)) := by
  have hS := cmxBuffSize_eq k
  obtain ⟨hend, hdsps, hlast⟩ := hs.mixRound tab ws hws hf h₁ h₂
  obtain ⟨c, hca, hmm, hbuf⟩ := hlast d f hl
  obtain ⟨c₀, hca₀, hml, hmax⟩ := hend.conf
  obtain rfl : c = c₀ := Option.some_inj.1 (hca.symm.trans hca₀)
  obtain ⟨L, hX⟩ := hdsps x fx hx
  obtain ⟨m, hm, rfl⟩ := List.mem_map.1 (hws.subset (List.mem_map_of_mem Prod.fst hx))
  have hc : (mixRound tab s ws).dspConf m.dsp = some c := by simp [Cmx.dspConf, (hend.node m hm).1, hca]
  have hfx : fx.length = n := hf _ hx
  rw [dspCmxSend_quiet tab toneCopy _ _ _ (by omega) (by rw [hX]; exact hsync.tone) (by rw [hX]; exact hsync.tx),
    sendWindow_conf hc (by rw [hmm, hmax, if_pos rfl, hX]; exact congrArg (·.adv n) hsync.rRx.symm),
    sendMix_many_snd tab _ _ hc (by rw [hml]; exact h3) (by rw [hX]; exact hecho)]
  refine List.map_congr_left fun i hi => ?_
  have hi : i < n := List.mem_range.1 hi
  simp only [hX, hsync.rRx, hbuf i hi, writeRing_apply _ _ _ _ (show n ≤ cmxBuffSize k by omega),
    Ptr.off_adv w i (show i < cmxBuffSize k by omega), hfx, min_self, if_pos hi]

theorem mixRound_heard_joinedThree :
    joinedThree.InStep 1 threeNodes 0 1 (threeNodes.map (·.dsp)) ∧ 3 ≤ threeNodes.length ∧
      (mixFrames.map Prod.fst).Perm (threeNodes.map (·.dsp)) ∧ (∀ p ∈ mixFrames, p.2.length = 1) ∧
      1 < cmxBuffHalf 13 / 4 ∧ mixFrames.getLast? = some (2, [3]) ∧ (0, [7]) ∈ mixFrames ∧
      (joinedThree.dsps 0).SyncedAt 0 ∧ (joinedThree.dsps 0).echo = false ∧
      (dspCmxSend tab₀ noTone (mixRound tab₀ joinedThree mixFrames) 0 1).1 = (List.range 1).map fun i =>
        encodeSample (tab₀.encodeLaw (joinedThree.dsps 0).ulaw)
          (tab₀.decodeLaw (joinedThree.dsps 2).ulaw ([3].getD i 0) -
            tab₀.decodeLaw (joinedThree.dsps 0).ulaw ([7].getD i 0)) :=
  have hf : ∀ p ∈ mixFrames, p.2.length = 1 := by decide
  have hsync : (joinedThree.dsps 0).SyncedAt 0 := ⟨rfl, rfl, rfl, rfl⟩
  have hx : ((0 : Nat), [(7 : UInt8)]) ∈ mixFrames := by decide
  ⟨joinedThree_inStep, by decide, List.Perm.refl _, hf, by decide, rfl, hx, hsync, rfl,
    mixRound_heard tab₀ noTone joinedThree_inStep (by decide) mixFrames (List.Perm.refl _) hf le_rfl
      (by decide) rfl hx hsync rfl⟩

end MisdnDsp
