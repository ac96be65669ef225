import MisdnDsp.Cmx.Hardware

/-!
# What `dsp_cmx` changes

`dsp_cmx` only manages membership.  `CmxEdit s s'` collects what it can do: every channel keeps its
data-path fields (`Dsp.SameData`), and every conference after the call is an old one with the same
id, pointers and `largest` whose solution is kept or set to software or a crossconnect
(`Conference.Edited`), or a fresh one.  The relation is proved once per list primitive and composed
along `removeFromConf` and `addToConf`; the invariants of the data path then follow from it alone.
-/

namespace MisdnDsp

variable {k : Nat}

/-- The fields of a channel that `dsp_cmx` does not write. -/
def Dsp.SameData (x y : Dsp k) : Prop :=
  y.largest = x.largest ∧ y.txBuff = x.txBuff ∧ y.wTx = x.wTx ∧ y.rTx = x.rTx ∧
    y.hfcId = x.hfcId ∧ y.txMix = x.txMix ∧ y.confId = x.confId ∧ y.bActive = x.bActive ∧
    y.echo = x.echo ∧ y.tone = x.tone ∧ y.ulaw = x.ulaw

/-- `y` is what `dsp_cmx` may make of the conference `x`. -/
def Conference.Edited (x y : Conference k) : Prop :=
  y.addr = x.addr ∧ y.id = x.id ∧ y.wMin = x.wMin ∧ y.wMax = x.wMax ∧ y.largest = x.largest ∧
    (y.solution = x.solution ∨ y.solution = -1 ∨ y.solution = 0)

/-- A conference as `dsp_cmx_new_conf` makes it, possibly crossconnected since. -/
def Conference.Fresh (c : Conference k) : Prop :=
  c.wMin = 0 ∧ c.wMax = 0 ∧ c.largest = 0 ∧ (c.solution = -1 ∨ c.solution = 0)

/-- What `dsp_cmx` can do to a state. -/
structure CmxEdit (s s' : Cmx k) : Prop where
  dsps : ∀ d, (s.dsps d).SameData (s'.dsps d)
  confs : ∀ c' ∈ s'.confList, (∃ c ∈ s.confList, c.Edited c') ∨ c'.Fresh

theorem Dsp.SameData.refl (x : Dsp k) : x.SameData x := by simp [Dsp.SameData]

theorem Dsp.SameData.trans {x y z : Dsp k} (h₁ : x.SameData y) (h₂ : y.SameData z) : x.SameData z := by
  simp only [Dsp.SameData] at *
  simp_all

theorem Conference.Edited.refl (x : Conference k) : x.Edited x := by simp [Conference.Edited]

theorem Conference.Edited.trans {x y z : Conference k} (h₁ : x.Edited y) (h₂ : y.Edited z) :
    x.Edited z := by
  obtain ⟨a₁, i₁, m₁, M₁, l₁, s₁⟩ := h₁
  obtain ⟨a₂, i₂, m₂, M₂, l₂, s₂⟩ := h₂
  exact ⟨a₂.trans a₁, i₂.trans i₁, m₂.trans m₁, M₂.trans M₁, l₂.trans l₁, by omega⟩

theorem Conference.Fresh.edited {x y : Conference k} (h₁ : x.Fresh) (h₂ : x.Edited y) : y.Fresh := by
  obtain ⟨m, M, l, sol⟩ := h₁
  obtain ⟨-, -, m', M', l', sol'⟩ := h₂
  exact ⟨m'.trans m, M'.trans M, l'.trans l, by omega⟩

theorem CmxEdit.refl (s : Cmx k) : CmxEdit s s :=
  ⟨fun _ => Dsp.SameData.refl _, fun c hc => .inl ⟨c, hc, Conference.Edited.refl c⟩⟩

theorem CmxEdit.trans {s₁ s₂ s₃ : Cmx k} (h₁ : CmxEdit s₁ s₂) (h₂ : CmxEdit s₂ s₃) : CmxEdit s₁ s₃ := by
  refine ⟨fun d => (h₁.dsps d).trans (h₂.dsps d), fun c₃ hc₃ => ?_⟩
  rcases h₂.confs c₃ hc₃ with ⟨c₂, hc₂, e₂⟩ | hf
  · rcases h₁.confs c₂ hc₂ with ⟨c₁, hc₁, e₁⟩ | hf
    · exact .inl ⟨c₁, hc₁, e₁.trans e₂⟩
    · exact .inr (hf.edited e₂)
  · exact .inr hf

/-! ### The list primitives -/

theorem CmxEdit.heap (s : Cmx k) (h : Nat) : CmxEdit s { s with heap := h } :=
  ⟨fun _ => Dsp.SameData.refl _, fun c hc => .inl ⟨c, hc, Conference.Edited.refl c⟩⟩

theorem CmxEdit.setDsp {s : Cmx k} {d : Nat} {x : Dsp k} (h : (s.dsps d).SameData x) :
    CmxEdit s (s.setDsp d x) := by
  refine ⟨fun e => ?_, fun c hc => .inl ⟨c, hc, Conference.Edited.refl c⟩⟩
  by_cases he : e = d
  · subst he; simpa using h
  · simpa [he] using Dsp.SameData.refl (s.dsps e)

theorem CmxEdit.setConf {s : Cmx k} {a : Nat} {x c : Conference k} (hx : x ∈ s.confList)
    (h : x.Edited c) : CmxEdit s (s.setConf a c) := by
  refine ⟨fun _ => Dsp.SameData.refl _, fun c' hc' => .inl ?_⟩
  simp only [Cmx.setConf_confList, List.mem_map] at hc'
  obtain ⟨y, hy, rfl⟩ := hc'
  split
  · exact ⟨x, hx, h⟩
  · exact ⟨y, hy, Conference.Edited.refl y⟩

theorem dspCmxAddConfMember_edit {tab : AudioTables} {ok : Bool} {s s' : Cmx k} {d : Nat}
    {c : Conference k} (hc : c ∈ s.confList) (h : dspCmxAddConfMember tab ok s d c = .ok s') :
    CmxEdit s s' := by
  simp only [dspCmxAddConfMember] at h
  split_ifs at h <;> cases h <;>
    exact ((CmxEdit.heap s _).trans (CmxEdit.setDsp (by simp [Dsp.SameData]))).trans
      (CmxEdit.setConf (x := c) (by simpa using hc) (by simp [Conference.Edited]))

theorem dspCmxDelConfMember_edit {s s' : Cmx k} {d : Nat} (h : dspCmxDelConfMember s d = .ok s') :
    CmxEdit s s' := by
  unfold dspCmxDelConfMember at h
  split at h
  · cases h
  rename_i c hc
  split at h
  · cases h
  split at h
  · cases h
  cases h
  exact (CmxEdit.setConf (Cmx.dspConf_mem hc) (by simp [Conference.Edited])).trans
    (CmxEdit.setDsp (by simp [Dsp.SameData]))

theorem dspCmxNewConf_edit {ok : Bool} {s s' : Cmx k} {id : Nat} {c : Conference k}
    (h : dspCmxNewConf ok s id = some (s', c)) : CmxEdit s s' ∧ c ∈ s'.confList := by
  unfold dspCmxNewConf at h
  split at h
  · cases h
  split at h
  · cases h
  simp only [Option.some.injEq, Prod.mk.injEq] at h
  obtain ⟨rfl, rfl⟩ := h
  refine ⟨⟨fun _ => Dsp.SameData.refl _, fun c' hc' => ?_⟩, by simp⟩
  simp only [List.mem_append, List.mem_singleton] at hc'
  rcases hc' with hc' | rfl
  · exact .inl ⟨c', hc', Conference.Edited.refl c'⟩
  · exact .inr (by simp [Conference.Fresh])

theorem dspCmxDelConf_edit {s s' : Cmx k} {c : Conference k} (h : dspCmxDelConf s c = .ok s') :
    CmxEdit s s' := by
  unfold dspCmxDelConf at h
  split at h
  · cases h
  cases h
  refine ⟨fun _ => Dsp.SameData.refl _, fun c' hc' => .inl ⟨c', ?_, Conference.Edited.refl c'⟩⟩
  exact (List.mem_filter.mp hc').1

/-! ### The hardware bookkeeping

Lines 557-601 and 658-713 run the release of the conference, of a crossconnect and the crossconnect
itself, each under its own condition: a relation that each stage keeps is kept by the whole
bookkeeping.  The case analysis is made once here, for `Conference.Edited` below and for the chain
of the conference in `Cmx/Membership.lean`. -/

theorem hwConfRelease_edited (c : Conference k) (ds : List Directive) :
    c.Edited (hwConfRelease c ds).1 := by
  simp [hwConfRelease, Conference.Edited]

theorem hwCrossRelease_edited {pair : Option (ConfMember × ConfMember)} {c : Conference k}
    {ds : List Directive} {cd : Conference k × List Directive}
    (h : hwCrossRelease pair c ds = .ok cd) : c.Edited cd.1 := by
  unfold hwCrossRelease at h
  split at h
  · cases h
  · cases h; simp [Conference.Edited]

theorem hwCrossConnect_edited {hfc : Nat} {c : Conference k} {ds : List Directive}
    {cd : Conference k × List Directive} (h : hwCrossConnect hfc c ds = .ok cd) : c.Edited cd.1 := by
  unfold hwCrossConnect at h
  split at h
  · cases h; simp [Conference.Edited]
  · cases h

section Stages

variable (R : Conference k → Conference k → Prop)

/-- An optional stage that may fail keeps `R` when it succeeds. -/
theorem rel_of_ite (htrans : ∀ {a b c}, R a b → R b c → R a c) {p : Prop} [Decidable p] {f : Except Int (Conference k × List Directive)}
    {c : Conference k} {cd cd' : Conference k × List Directive} (hc : R c cd.1)
    (hf : ∀ cd'', f = .ok cd'' → R cd.1 cd''.1) (h : (if p then f else .ok cd) = .ok cd') :
    R c cd'.1 := by
  split at h
  · exact htrans hc (hf _ h)
  · cases h; exact hc

/-- Lines 557-601 keep every relation that the release of the conference, the release of a
crossconnect and a crossconnect keep. -/
theorem removeHw_rel (hrefl : ∀ c, R c c) (htrans : ∀ {a b c}, R a b → R b c → R a c)
    (hrel : ∀ c ds, R c (hwConfRelease c ds).1)
    (hcross : ∀ {pair c ds cd}, hwCrossRelease pair c ds = .ok cd → R c cd.1)
    (hconn : ∀ {hfc c ds cd}, hwCrossConnect hfc c ds = .ok cd → R c cd.1)
    (d hfc : Nat) (pair : Option (ConfMember × ConfMember)) (old new : Int) (c : Conference k) :
    R c (removeHw d hfc pair old new c).1 := by
  simp only [removeHw]
  generalize (if new > 0 ∧ old > 0 then [Directive.conf d 0] else []) = ds
  have h₁ : R c (if new ≤ 0 ∧ old > 0 then hwConfRelease c ds else (c, ds)).1 := by
    split
    · exact hrel c ds
    · exact hrefl c
  split
  · exact h₁
  · have h₂ := rel_of_ite R htrans h₁ (fun _ h => hcross h) ‹_›
    split
    · exact h₂
    · exact rel_of_ite R htrans h₂ (fun _ h => hconn h) ‹_›

/-- Lines 658-713 keep every relation that the release of the conference, the release of a
crossconnect, a crossconnect and the connection to unit `new` keep. -/
theorem addHw_rel (hrefl : ∀ c, R c c) (htrans : ∀ {a b c}, R a b → R b c → R a c)
    (hrel : ∀ c ds, R c (hwConfRelease c ds).1)
    (hcross : ∀ {pair c ds cd}, hwCrossRelease pair c ds = .ok cd → R c cd.1)
    (hconn : ∀ {hfc c ds cd}, hwCrossConnect hfc c ds = .ok cd → R c cd.1)
    (hfc : Nat) (pair : Option (ConfMember × ConfMember)) (old new : Int) (c : Conference k)
    (hunit : new > 0 → ∀ {c₁ ds}, R c c₁ → R c (hwConfConnect new hfc c₁ ds).1) :
    R c (addHw hfc pair old new c).1 := by
  simp only [addHw]
  have h₁ : R c (if new ≤ 0 ∧ old > 0 then hwConfRelease c [] else (c, [])).1 := by
    split
    · exact hrel c []
    · exact hrefl c
  split
  · exact h₁
  · rename_i cd₁ h₂
    have h₃ : R c (if new > 0 then hwConfConnect new hfc cd₁.1 cd₁.2 else cd₁).1 := by
      have h₂ := rel_of_ite R htrans h₁ (fun _ h => hcross h) h₂
      split
      · exact hunit ‹_› h₂
      · exact h₂
    split
    · exact h₃
    · exact rel_of_ite R htrans h₃ (fun _ h => hconn h) ‹_›

end Stages

theorem removeHw_edited (d hfc : Nat) (pair : Option (ConfMember × ConfMember)) (old new : Int)
    (c : Conference k) : c.Edited (removeHw d hfc pair old new c).1 :=
  removeHw_rel _ Conference.Edited.refl (fun h₁ h₂ => h₁.trans h₂) hwConfRelease_edited
    hwCrossRelease_edited hwCrossConnect_edited d hfc pair old new c

theorem addHw_edited (hfc : Nat) (pair : Option (ConfMember × ConfMember)) (old new : Int)
    (c : Conference k) (hnew : new > 0 → new = c.solution) : c.Edited (addHw hfc pair old new c).1 :=
  addHw_rel _ Conference.Edited.refl (fun h₁ h₂ => h₁.trans h₂) hwConfRelease_edited
    hwCrossRelease_edited hwCrossConnect_edited hfc pair old new c
    fun hpos _ _ h => ⟨h.1, h.2.1, h.2.2.1, h.2.2.2.1, h.2.2.2.2.1, .inl (hnew hpos)⟩

/-! ### `dsp_cmx` -/

theorem removeFromConf_edit {fuel : Nat} {s s' : Cmx k} {d : Nat} {c : Conference k}
    {ds : List Directive} {r : Option Int} (h : removeFromConf fuel s d c = some (s', ds, r)) :
    CmxEdit s s' := by
  simp only [removeFromConf] at h
  split at h
  · cases h; exact CmxEdit.refl s
  rename_i s₁ h₁
  have e₁ := dspCmxDelConfMember_edit h₁
  split at h
  · cases h
  rename_i c₁ hc₁
  split at h
  · cases h
  rename_i new _
  have e₂ := e₁.trans (CmxEdit.setConf (Cmx.confAt_mem hc₁) (removeHw_edited d (s.dsps d).hfcId
    (twoMembers c.mlist) c.solution new c₁) (a := c.addr))
  split at h
  · cases h; exact e₂
  split at h
  · split at h
    · cases h; exact e₂
    · cases h; exact e₂.trans (dspCmxDelConf_edit (by assumption))
  · cases h; exact e₂

theorem addToConf_edit {tab : AudioTables} {fuel : Nat} {ok : Vmalloc} {s s' : Cmx k}
    {ds ds' : List Directive} {d : Nat} {r : Int} (h : addToConf tab fuel ok s ds d = some (s', ds', r)) :
    CmxEdit s s' := by
  simp only [addToConf] at h
  split at h
  · cases h; exact CmxEdit.refl s
  split at h
  · cases h; exact CmxEdit.refl s
  rename_i s₁ c hfound
  have e₁ : CmxEdit s s₁ ∧ c ∈ s₁.confList := by
    split at hfound
    · rename_i c₀ hs
      simp only [Option.some.injEq, Prod.mk.injEq] at hfound
      obtain ⟨rfl, rfl⟩ := hfound
      refine ⟨CmxEdit.refl s, ?_⟩
      unfold dspCmxSearchConf at hs
      split at hs
      · cases hs
      · exact List.mem_of_find?_eq_some hs
    · exact dspCmxNewConf_edit hfound
  split at h
  · cases h; exact e₁.1
  rename_i s₂ h₂
  have e₂ := e₁.1.trans (dspCmxAddConfMember_edit e₁.2 h₂)
  split at h
  · cases h; exact e₂
  split at h
  · cases h
  rename_i c₂ hc₂
  split at h
  · cases h
  rename_i new hnew
  cases h
  exact e₂.trans (CmxEdit.setConf (Cmx.confAt_mem hc₂)
    (addHw_edited _ _ _ _ _ fun hp => (dspCmxHfc_pos hnew hp).symm))

/-- `dsp_cmx` changes nothing but membership, rx pointers and hardware solutions. -/
theorem dspCmx_edit {tab : AudioTables} {fuel : Nat} {ok : Vmalloc} {s s' : Cmx k} {d : Nat}
    {ds : List Directive} {r : Int} (h : dspCmx tab fuel ok s d = some (s', ds, r)) : CmxEdit s s' := by
  simp only [dspCmx] at h
  split at h
  · split at h
    · cases h; exact CmxEdit.refl s
    · exact addToConf_edit h
  · split at h
    · cases h; exact CmxEdit.refl s
    split at h
    · cases h
    · cases h; exact removeFromConf_edit (by assumption)
    · exact (removeFromConf_edit (by assumption)).trans (addToConf_edit h)

end MisdnDsp
