import MisdnDsp.Cmx.System

/-!
# Hardware solutions

What `dsp_cmx_hfc` hands out, and what `dsp_cmx` stores.

* The free-unit search at lines 466-472 is `while(i < 8) if (unit > 8) { ... }`: since `unit > 8`
  has returned -1 before, the loop body is empty and the loop never ends (`hfcFreeUnit_eq_none`).
  So `dsp_cmx_hfc` only returns a unit that the conference already holds (`dspCmxHfc_pos`), and
  `dsp_cmx` does not return at all when a third member on one chip joins a conference that is not
  the last one of `Conf_list`.
* `dspCmxHfc_free_unit_never_returns`: in every registry whose solutions lie in `-1..8` with no unit
  held twice on a chip, a conference of three or more members on one chip that holds no unit yet
  sends `dsp_cmx_hfc` into that loop.
* `addToConf` recomputes the solution only when `conf->next` is set, that is when the conference is
  not the last one of `Conf_list` (line 647): the solution of the last conference goes stale.  A
  channel that joins such a conference and leaves it again leaves it with another solution
  (`dspCmx_join_leave_changes_solution`), since the leave recomputes what the join did not.

The registry under failing allocations: `dsp_cmx` creates the conference of a channel's `conf_id`
before it allocates the channel's member node (lines 617-643).  When the second `vmalloc` fails,
`dsp_cmx_add_conf_member` returns `-ENOMEM` and `dsp_cmx` passes it on at once, so the conference it
has just appended stays in `Conf_list` with no member, and nothing removes it later: `dsp_cmx`
deletes a conference only on the way out of it, and no channel is in this one
(`dspCmx_enomem_empty_conf`).
-/

namespace MisdnDsp

variable {k : Nat}

/-- The free-unit search does not return unless `unit > 8`, which was excluded before. -/
theorem hfcFreeUnit_eq_none (freeunits : List Nat) (unit : Nat) (h : unit ≤ 8) :
    ∀ fuel, hfcFreeUnit freeunits unit fuel 0 = none
  | 0 => rfl
  | fuel + 1 => by
    simp only [hfcFreeUnit, show ¬ unit > 8 by omega, if_false, if_pos (show 0 < 8 by omega)]
    exact hfcFreeUnit_eq_none freeunits unit h fuel

/-- `dsp_cmx_hfc` returns a unit only when the conference already holds it. -/
theorem dspCmxHfc_pos {fuel : Nat} {s : Cmx k} {c : Conference k} {u : Int}
    (h : dspCmxHfc fuel s c = some u) (hu : 0 < u) : c.solution = u := by
  unfold dspCmxHfc at h
  split at h
  · simp at h; omega
  · split at h
    · simp at h; omega
    split at h
    · simp at h; omega
    split at h
    · simp at h; omega
    · rename_i fu unit _
      split at h
      · simp at h; omega
      split at h
      · simpa using h
      · rw [hfcFreeUnit_eq_none _ _ (by omega)] at h
        cases h

/-! ### What `dsp_cmx_hfc` returns -/

/-- The member loop counts a chain whose members are all on chip `h ≠ 0` without `tx_mix`. -/
theorem hfcMembers_eq_length (s : Cmx k) {h : Nat} (hh : h ≠ 0) :
    ∀ ms : List ConfMember, (∀ m ∈ ms, (s.dsps m.dsp).hfcId = h ∧ (s.dsps m.dsp).txMix = false) →
      hfcMembers s h ms = some ms.length
  | [], _ => rfl
  | m :: ms, hon => by
    obtain ⟨h₁, h₂⟩ := hon m (List.mem_cons_self _ _)
    simp only [hfcMembers, h₁, h₂, hh, Bool.false_eq_true, if_false, ne_eq, not_true_eq_false,
      hfcMembers_eq_length s hh ms fun m hm => hon m (List.mem_cons_of_mem _ hm), Option.map_some',
      List.length_cons]

/-- Distinct units, each in `1..8`, are at most eight. -/
theorem units_length_le {P : List Int} (hnd : P.Nodup) (hP : ∀ u ∈ P, 1 ≤ u ∧ u ≤ 8) :
    P.length ≤ 8 :=
  calc P.length = P.toFinset.card := (List.toFinset_card_of_nodup hnd).symm
    _ ≤ (Finset.Icc (1 : Int) 8).card :=
      Finset.card_le_card fun u hu => Finset.mem_Icc.2 (hP u (List.mem_toFinset.1 hu))
    _ = 8 := by simp

/-- The scan of `Conf_list` (lines 436-455) after the units `P`, with the slot of `freeunits` clear
for every unit not in `P`: while the units of the conferences on one chip are at most 8 and
pairwise distinct, it neither fails nor counts more than 8. -/
theorem hfcUnits_le (c : Conference k) :
    ∀ (l : List (Conference k)) (fu : List Nat) (P : List Int),
      (∀ t ∈ l, t.solution ≤ 8) →
      l.Pairwise (fun t₁ t₂ => t₁.hfcId = t₂.hfcId → 0 < t₁.solution → t₁.solution ≠ t₂.solution) →
      (∀ t ∈ l, c.hfcId = t.hfcId → 0 < t.solution → t.solution ∉ P) →
      P.Nodup → (∀ u ∈ P, 1 ≤ u ∧ u ≤ 8) → (∀ j : Nat, (j + 1 : Int) ∉ P → fu.getD j 0 = 0) →
      ∃ fu' n, hfcUnits c l fu P.length = some (fu', n) ∧ n ≤ 8
  | [], fu, P, _, _, _, hnd, hP, _ => ⟨fu, P.length, rfl, units_length_le hnd hP⟩
  | t :: l, fu, P, h8, hpw, hnew, hnd, hP, hfu => by
    obtain ⟨hpw₁, hpw⟩ := List.pairwise_cons.1 hpw
    have h8t := h8 t (List.mem_cons_self _ _)
    have h8' := fun t' ht' => h8 t' (List.mem_cons_of_mem _ ht')
    have hnew' := fun t' ht' => hnew t' (List.mem_cons_of_mem _ ht')
    simp only [hfcUnits]
    split
    · rename_i hc
      rw [if_neg (by omega)]
      split
      · rename_i hpos
        have ht : t.solution ∉ P := hnew t (List.mem_cons_self _ _) hc.2 hpos
        -- the slot of `t`'s unit is still clear
        have hj : (((t.solution - 1).toNat : Nat) : Int) + 1 = t.solution := by
          rw [Int.toNat_of_nonneg (by omega)]; omega
        rw [if_neg (by rw [hfu _ (by rwa [hj])]; exact fun h => h rfl)]
        refine hfcUnits_le c l _ (t.solution :: P) h8' hpw (fun t' ht' hc' hpos' => ?_)
          (List.nodup_cons.2 ⟨ht, hnd⟩) (fun u hu => ?_) (fun j hjP => ?_)
        · rw [List.mem_cons, not_or]
          exact ⟨(hpw₁ t' ht' (hc.2.symm.trans hc') hpos).symm, hnew' t' ht' hc' hpos'⟩
        · rcases List.mem_cons.1 hu with rfl | hu
          · omega
          · exact hP u hu
        · rw [List.mem_cons, not_or] at hjP
          have hne : (t.solution - 1).toNat ≠ j := fun e => hjP.1 (by rw [← e, hj])
          rw [List.getD_eq_getElem?_getD, List.getElem?_set_ne hne, ← List.getD_eq_getElem?_getD]
          exact hfu j hjP.2
      · exact hfcUnits_le c l fu P h8' hpw hnew' hnd hP hfu
    · exact hfcUnits_le c l fu P h8' hpw hnew' hnd hP hfu

/-- For a chain of three or more members on one chip, a registry whose solutions lie in `-1..8`
with no unit held twice on a chip, and a conference that holds no unit yet, `dsp_cmx_hfc` reaches
the free-unit search and never returns. -/
theorem dspCmxHfc_eq_none (fuel : Nat) (s : Cmx k) (c : Conference k) {h : Nat} (hh : h ≠ 0)
    (hlen : 3 ≤ c.mlist.length)
    (hon : ∀ m ∈ c.mlist, (s.dsps m.dsp).hfcId = h ∧ (s.dsps m.dsp).txMix = false)
    (hsol : ∀ t ∈ s.confList, -1 ≤ t.solution ∧ t.solution ≤ 8)
    (huniq : s.confList.Pairwise
      fun t₁ t₂ => t₁.hfcId = t₂.hfcId → 0 < t₁.solution → t₁.solution ≠ t₂.solution)
    (hc : c.solution ≤ 0) : dspCmxHfc fuel s c = none := by
  obtain ⟨m₀, ms, hm⟩ : ∃ m₀ ms, c.mlist = m₀ :: ms := by
    cases e : c.mlist with
    | nil => rw [e] at hlen; cases hlen
    | cons m₀ ms => exact ⟨m₀, ms, rfl⟩
  have hfirst : (c.mlist.head?.map fun m => (s.dsps m.dsp).hfcId).getD 0 = h := by
    rw [hm]; exact (hon m₀ (by simp [hm])).1
  obtain ⟨fu, n, hu, hn⟩ := hfcUnits_le c s.confList (List.replicate 8 0) []
    (fun t ht => (hsol t ht).2) huniq (by simp) List.nodup_nil (by simp)
    (fun j _ => by simp only [List.getD_eq_getElem?_getD, List.getElem?_replicate]; split <;> rfl)
  simp only [dspCmxHfc, hfirst, hfcMembers_eq_length s hh _ hon, if_neg (show ¬ c.mlist.length < 2 by omega),
    if_neg (show ¬ c.mlist.length = 2 by omega)]
  rw [show ([] : List Int).length = 0 from rfl] at hu
  simp only [hu, if_neg (show ¬ n > 8 by omega), if_neg (show ¬ c.solution > 0 by omega)]
  exact hfcFreeUnit_eq_none fu n hn fuel

/-- `dsp_cmx_hfc` does not return for a chain of three or more members on one chip `h ≠ 0` without
`tx_mix` whose conference holds no unit yet, in every registry whose solutions lie in `-1..8` and
where no two conferences on one chip hold the same unit.  Three channels on chip 1 that join
conference 1, the only conference, leave such a conference behind. -/
theorem dspCmxHfc_free_unit_never_returns :
    (∀ (fuel : Nat) (s : Cmx k) (c : Conference k) (h : Nat), h ≠ 0 → 3 ≤ c.mlist.length →
      (∀ m ∈ c.mlist, (s.dsps m.dsp).hfcId = h ∧ (s.dsps m.dsp).txMix = false) →
      (∀ t ∈ s.confList, -1 ≤ t.solution ∧ t.solution ≤ 8) →
      s.confList.Pairwise
        (fun t₁ t₂ => t₁.hfcId = t₂.hfcId → 0 < t₁.solution → t₁.solution ≠ t₂.solution) →
      c.solution ≤ 0 → dspCmxHfc fuel s c = none) ∧
    ∃ s ds, Trace tab₀ noTone (Cmx.zero fun _ => 1 : Cmx 13)
        [.cmx 1 1 true ⟨true, true⟩, .cmx 2 1 true ⟨true, true⟩, .cmx 3 1 true ⟨true, true⟩] ds s ∧
      ∃ c, s.confList = [c] ∧ c.mlist.length = 3 ∧
        (∀ m ∈ c.mlist, (s.dsps m.dsp).hfcId = 1 ∧ (s.dsps m.dsp).txMix = false) ∧
        c.solution = -1 ∧ ∀ fuel, dspCmxHfc fuel s c = none := by
  refine ⟨fun fuel s c h hh hl hon hsol hu hc => dspCmxHfc_eq_none fuel s c hh hl hon hsol hu hc, ?_⟩
  refine (Trace.exists_of_run 0
    (P := fun s _ => ∃ c, s.confList = [c] ∧ c.mlist.length = 3 ∧
      (∀ m ∈ c.mlist, (s.dsps m.dsp).hfcId = 1 ∧ (s.dsps m.dsp).txMix = false) ∧ c.solution = -1)
    (fun s _ => s.confList.length == 1 && s.confList.all fun c => c.mlist.length == 3 &&
      c.mlist.all (fun m => (s.dsps m.dsp).hfcId == 1 && !(s.dsps m.dsp).txMix) && c.solution == -1)
    (fun s _ h => by
      simp only [Bool.and_eq_true, beq_iff_eq, List.all_eq_true] at h
      obtain ⟨c, hc⟩ := List.length_eq_one.1 h.1
      simpa [hc, and_assoc] using h.2)
    (by decide)).imp fun s => Exists.imp fun ds => And.imp_right fun ⟨c, hcs, hl, hon, hc⟩ =>
      ⟨c, hcs, hl, hon, hc, fun fuel => dspCmxHfc_eq_none fuel s c one_ne_zero (by omega) hon
        (by simp [hcs, hc]) (by simp [hcs]) (by omega)⟩

/-- Two channels on chip 1 join conference 1 while it is the only conference: each time
`dsp_cmx` stops at `if (!conf->next)`, and the conference stays in software with two members that
the hardware could crossconnect. -/
theorem dspCmx_last_conf_keeps_software :
    ∃ s ds, Trace tab₀ noTone (Cmx.zero fun _ => 1 : Cmx 13)
        [.cmx 1 1 true ⟨true, true⟩, .cmx 2 1 true ⟨true, true⟩] ds s ∧
      ∃ c ∈ s.confList, c.mlist.map (·.dsp) = [1, 2] ∧
        (∀ m ∈ c.mlist, (s.dsps m.dsp).hfcId = 1 ∧ (s.dsps m.dsp).txMix = false) ∧ c.solution = -1 := by
  exact Trace.exists_of_run 0 (fun s _ => s.confList.any fun c =>
      c.mlist.map (·.dsp) == [1, 2] &&
        c.mlist.all (fun m => (s.dsps m.dsp).hfcId == 1 && !(s.dsps m.dsp).txMix) &&
        c.solution == -1)
    (fun s _ h => by simpa [List.any_eq_true, List.all_eq_true, and_assoc] using h) (by decide)

/-- A crossconnect survives the third member: conference 1 gets its crossconnect while conference 2
follows it in `Conf_list`; conference 2 is then deleted, and the third member joins conference 1 as
the last conference, so no directive releases the crossconnect. -/
theorem dspCmx_stale_crossconnect :
    ∃ s ds, Trace tab₀ noTone (Cmx.zero fun _ => 1 : Cmx 13)
        [.cmx 0 1 true ⟨true, true⟩, .cmx 9 2 true ⟨true, true⟩, .cmx 1 1 true ⟨true, true⟩,
         .cmx 9 0 true ⟨true, true⟩, .cmx 2 1 true ⟨true, true⟩] ds s ∧
      ds = [.cross 0 1 true] ∧ ∀ c ∈ s.confList, c.mlist.length = 3 ∧ c.solution = 0 := by
  exact Trace.exists_of_run 0 (fun s ds =>
      ds == [.cross 0 1 true] && s.confList.all fun c => c.mlist.length == 3 && c.solution == 0)
    (fun s ds h => by simpa [List.all_eq_true] using h) (by decide)

/-- Channels 1 and 2 on chip 1 join conference 1 while it is the last conference, so it stays in
software, and channel 9 opens conference 2 behind it.  Channel 3, on chip 2, joins conference 1 and
leaves it again.  The join finds two chips and leaves the solution alone; the leave finds the two
members of chip 1 and crossconnects them, on chip 2, the chip of the channel that left.  Conference 1
ends with another solution and another `hfc_id` than it had before the join. -/
theorem dspCmx_join_leave_changes_solution :
    ∃ s ds, Trace tab₀ noTone (Cmx.zero fun d => if d = 3 then 2 else 1 : Cmx 13)
        [.cmx 1 1 true ⟨true, true⟩, .cmx 2 1 true ⟨true, true⟩, .cmx 9 2 true ⟨true, true⟩] ds s ∧
      (s.dsps 3).conf = none ∧
      s.confList.map (fun c => (c.id, c.mlist.map (·.dsp), c.solution, c.hfcId)) =
        [(1, [1, 2], -1, 0), (2, [9], -1, 0)] ∧
      ∃ s' ds', Trace tab₀ noTone s [.cmx 3 1 true ⟨true, true⟩, .cmx 3 0 true ⟨true, true⟩] ds' s' ∧
        ds' = [.cross 1 2 true] ∧
        s'.confList.map (fun c => (c.id, c.mlist.map (·.dsp), c.solution, c.hfcId)) =
          [(1, [1, 2], 0, 2), (2, [9], -1, 0)] := by
  refine Trace.exists_of_run 0
    (fun s _ => (s.dsps 3).conf.isNone &&
      s.confList.map (fun c => (c.id, c.mlist.map (·.dsp), c.solution, c.hfcId)) ==
        [(1, [1, 2], -1, 0), (2, [9], -1, 0)] &&
      (run tab₀ noTone 0 s [.cmx 3 1 true ⟨true, true⟩, .cmx 3 0 true ⟨true, true⟩]).map
        (fun r => r.2.1 == [.cross 1 2 true] &&
          r.1.confList.map (fun c => (c.id, c.mlist.map (·.dsp), c.solution, c.hfcId)) ==
            [(1, [1, 2], 0, 2), (2, [9], -1, 0)]) == some true)
    (fun s _ h => ?_) (by decide)
  simp only [Bool.and_eq_true, beq_iff_eq, Option.isNone_iff_eq_none] at h
  exact ⟨h.1.1, h.1.2, Trace.exists_of_run 0 (fun s' ds' => ds' == [.cross 1 2 true] &&
    s'.confList.map (fun c => (c.id, c.mlist.map (·.dsp), c.solution, c.hfcId)) ==
      [(1, [1, 2], 0, 2), (2, [9], -1, 0)]) (fun _ _ h => by simpa using h) h.2⟩

/-! ### Failing allocations -/

/-- A channel joining a conference that does not exist yet, whose member node cannot be allocated,
leaves an empty conference behind and returns `-ENOMEM`. -/
theorem dspCmx_enomem_empty_conf (tab : AudioTables) (fuel : Nat) (s : Cmx k) (d : Nat)
    (hconf : (s.dsps d).conf = none) (hmem : (s.dsps d).member = none)
    (hid : (s.dsps d).confId ≠ 0) (hb : (s.dsps d).bActive = true)
    (hnone : dspCmxSearchConf s (s.dsps d).confId = none) :
    ∃ s', dspCmx tab fuel ⟨true, false⟩ s d = some (s', [], -enomem) ∧
      ∃ c ∈ s'.confList, c.id = (s.dsps d).confId ∧ c.mlist = [] := by
  let c : Conference k :=
    { addr := s.heap, id := (s.dsps d).confId, mlist := [], wMin := 0, wMax := 0, largest := 0
      confBuff := fun _ => 0, solution := -1, hfcId := 0 }
  refine ⟨{ s with confList := s.confList ++ [c], heap := s.heap + 1 }, ?_, c, by simp, rfl, rfl⟩
  simp [dspCmx, Cmx.dspConf, hconf, hid, addToConf, hb, hnone, dspCmxNewConf, dspCmxAddConfMember,
    hmem, c]

/-- Channel 0 asks for conference 1 while the `vmalloc` of its member node fails: the call returns
`-ENOMEM` and conference 1 stays in `Conf_list` with an empty member list.  The same happens from
every state in which the channel is in no conference and no conference has its id. -/
theorem dspCmx_enomem_leaves_empty_conf :
    (∀ (tab : AudioTables) (fuel : Nat) (s : Cmx k) (d : Nat),
      (s.dsps d).conf = none → (s.dsps d).member = none → (s.dsps d).confId ≠ 0 →
      (s.dsps d).bActive = true → dspCmxSearchConf s (s.dsps d).confId = none →
      ∃ s', dspCmx tab fuel ⟨true, false⟩ s d = some (s', [], -enomem) ∧
        ∃ c ∈ s'.confList, c.id = (s.dsps d).confId ∧ c.mlist = []) ∧
    ∃ s ds, Trace tab₀ noTone (Cmx.zero fun _ => 0 : Cmx 13) [.cmx 0 1 true ⟨true, false⟩] ds s ∧
      ∃ c ∈ s.confList, c.id = 1 ∧ c.mlist = [] := by
  refine ⟨dspCmx_enomem_empty_conf, ?_⟩
  exact Trace.exists_of_run 0 (fun s _ => s.confList.any fun c => c.id == 1 && c.mlist.isEmpty)
    (fun s _ h => by simpa [List.any_eq_true] using h) (by decide)

end MisdnDsp
