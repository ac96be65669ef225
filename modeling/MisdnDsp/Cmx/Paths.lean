import MisdnDsp.Cmx.Reconfigure

/-!
# The paths of `dsp_cmx`

What each block of `dsp_cmx` can do, said once.  The gotos of the source make many paths; each lemma
lists them with the state, the directives and the return value each leaves, guards included:

* `removeFromConf_cases`: lines 537-608, the node is not unlinked, or it is, the bookkeeping of lines
  557-601 rewrites the conference, and an empty conference is freed;
* `addToConf_cases`: lines 611-717, nothing to join, the conference of `conf_id` is found or created,
  the node is linked into it, and the bookkeeping of lines 658-713 runs unless it is the last one;
* `dspCmx_cases`: the dispatch of lines 518-533 over the two blocks.

The invariants of the registry and of the hardware units are proved from these, and never unfold
`dsp_cmx` again.
-/

namespace MisdnDsp

variable {k : Nat}

/-- The paths of lines 537-608. -/
theorem removeFromConf_cases {fuel : Nat} {s s' : Cmx k} {d : Nat} {c : Conference k}
    {ds : List Directive} {r : Option Int} (h : removeFromConf fuel s d c = some (s', ds, r)) :
    (∃ e, dspCmxDelConfMember s d = .error e ∧ s' = s ∧ ds = [] ∧ r = some e) ∨
    ∃ s₁ c₁ new R, dspCmxDelConfMember s d = .ok s₁ ∧ s₁.confAt c.addr = some c₁ ∧
      dspCmxHfc fuel s₁ c₁ = some new ∧
      R = removeHw d (s.dsps d).hfcId (twoMembers c.mlist) c.solution new c₁ ∧ ds = R.2.1 ∧
      ((s' = s₁.setConf c.addr R.1 ∧
          (r = R.2.2 ∨ ∃ e, dspCmxDelConf (s₁.setConf c.addr R.1) R.1 = .error e ∧ r = some e)) ∨
        (R.2.2 = none ∧ dspCmxDelConf (s₁.setConf c.addr R.1) R.1 = .ok s' ∧ r = none)) := by
  unfold removeFromConf at h
  split at h
  · cases h; exact .inl ⟨_, ‹_›, rfl, rfl, rfl⟩
  rename_i s₁ h₁
  split at h
  · cases h
  rename_i c₁ hc₁
  split at h
  · cases h
  rename_i new hnew
  refine .inr ⟨s₁, c₁, new, _, h₁, hc₁, hnew, rfl, ?_⟩
  dsimp only at h
  split at h
  · -- the bookkeeping failed
    rename_i e he
    cases h
    exact ⟨rfl, .inl ⟨rfl, .inl he.symm⟩⟩
  rename_i hnone
  split at h
  · split at h
    · cases h; exact ⟨rfl, .inl ⟨rfl, .inr ⟨_, ‹_›, rfl⟩⟩⟩
    · cases h; exact ⟨rfl, .inr ⟨hnone, ‹_›, rfl⟩⟩
  · cases h; exact ⟨rfl, .inl ⟨rfl, .inl hnone.symm⟩⟩

/-- The paths of lines 611-717. -/
theorem addToConf_cases {tab : AudioTables} {fuel : Nat} {ok : Vmalloc} {s s' : Cmx k}
    {ds ds' : List Directive} {d : Nat} {r : Int}
    (h : addToConf tab fuel ok s ds d = some (s', ds', r)) :
    (s' = s ∧ ds' = ds ∧
      (((s.dsps d).confId = 0 ∨ (s.dsps d).bActive = false) ∧ r = 0 ∨ r = -einval)) ∨
    ¬((s.dsps d).confId = 0 ∨ (s.dsps d).bActive = false) ∧
      ∃ s₁ c, ((dspCmxSearchConf s (s.dsps d).confId = some c ∧ s₁ = s) ∨
          (dspCmxSearchConf s (s.dsps d).confId = none ∧
            dspCmxNewConf ok.conf s (s.dsps d).confId = some (s₁, c))) ∧
        ((s' = s₁ ∧ ds' = ds ∧ dspCmxAddConfMember tab ok.member s₁ d c = .error r) ∨
          ∃ s₂, dspCmxAddConfMember tab ok.member s₁ d c = .ok s₂ ∧
            (((confNext c.addr s₂.confList).isNone ∧ s' = s₂ ∧ ds' = ds ∧ r = 0) ∨
              ∃ c₂ new R, s₂.confAt c.addr = some c₂ ∧ dspCmxHfc fuel s₂ c₂ = some new ∧
                R = addHw (s.dsps d).hfcId (twoMembers c.mlist) c₂.solution new c₂ ∧
                s' = s₂.setConf c.addr R.1 ∧ ds' = ds ++ R.2.1 ∧ r = R.2.2.getD 0)) := by
  unfold addToConf at h
  dsimp only at h
  split at h
  · cases h; exact .inl ⟨rfl, rfl, .inl ⟨‹_›, rfl⟩⟩
  rename_i hon
  split at h
  · cases h; exact .inl ⟨rfl, rfl, .inr rfl⟩
  rename_i s₁ c hf
  have hfound : (dspCmxSearchConf s (s.dsps d).confId = some c ∧ s₁ = s) ∨
      (dspCmxSearchConf s (s.dsps d).confId = none ∧
        dspCmxNewConf ok.conf s (s.dsps d).confId = some (s₁, c)) := by
    split at hf
    · cases hf; exact .inl ⟨‹_›, rfl⟩
    · exact .inr ⟨‹_›, hf⟩
  refine .inr ⟨hon, s₁, c, hfound, ?_⟩
  split at h
  · cases h; exact .inl ⟨rfl, rfl, ‹_›⟩
  rename_i s₂ h₂
  refine .inr ⟨s₂, h₂, ?_⟩
  split at h
  · cases h; exact .inl ⟨‹_›, rfl, rfl, rfl⟩
  split at h
  · cases h
  rename_i c₂ hc₂
  split at h
  · cases h
  rename_i new hnew
  cases h
  exact .inr ⟨c₂, new, _, hc₂, hnew, rfl, rfl, rfl, rfl⟩

/-- The dispatch of lines 518-533: nothing to do, the add block alone, or the remove block and, when
it falls through, the add block. -/
theorem dspCmx_cases {tab : AudioTables} {fuel : Nat} {ok : Vmalloc} {s s' : Cmx k} {d : Nat}
    {ds : List Directive} {r : Int} (h : dspCmx tab fuel ok s d = some (s', ds, r)) :
    (s' = s ∧ ds = [] ∧ r = 0 ∧
      ((s.dspConf d = none ∧ (s.dsps d).confId = 0) ∨
        ∃ c, s.dspConf d = some c ∧ (s.dsps d).confId ≠ 0 ∧ (s.dsps d).bActive = true ∧
          (s.dsps d).confId = c.id)) ∨
    (s.dspConf d = none ∧ addToConf tab fuel ok s [] d = some (s', ds, r)) ∨
    ∃ c, s.dspConf d = some c ∧
      ¬((s.dsps d).confId ≠ 0 ∧ (s.dsps d).bActive = true ∧ (s.dsps d).confId = c.id) ∧
      (removeFromConf fuel s d c = some (s', ds, some r) ∨
        ∃ s₁ ds₁, removeFromConf fuel s d c = some (s₁, ds₁, none) ∧
          addToConf tab fuel ok s₁ ds₁ d = some (s', ds, r)) := by
  unfold dspCmx at h
  dsimp only at h
  split at h
  · split_ifs at h with h0
    · cases h; exact .inl ⟨rfl, rfl, rfl, .inl ⟨‹_›, h0⟩⟩
    · exact .inr (.inl ⟨‹_›, h⟩)
  · rename_i c hc
    split_ifs at h with h0
    · cases h; exact .inl ⟨rfl, rfl, rfl, .inr ⟨c, hc, h0⟩⟩
    split at h
    · cases h
    · cases h; exact .inr (.inr ⟨c, hc, h0, .inl ‹_›⟩)
    · exact .inr (.inr ⟨c, hc, h0, .inr ⟨_, _, ‹_›, h⟩⟩)

/-- An optional stage of the bookkeeping of lines 557-601 and 658-713 keeps a property of the
directives issued so far when the stage itself keeps it. -/
theorem dirs_of_ite (P : List Directive → Prop) {p : Prop} [Decidable p]
    {f : Except Int (Conference k × List Directive)} {cd cd' : Conference k × List Directive}
    (hcd : P cd.2) (hf : ∀ cd'', f = .ok cd'' → P cd''.2) (h : (if p then f else .ok cd) = .ok cd') :
    P cd'.2 := by
  split at h
  · exact hf _ h
  · cases h; exact hcd

end MisdnDsp
