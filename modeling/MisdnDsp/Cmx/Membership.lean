import MisdnDsp.Cmx.Edit

/-!
# The membership invariant and the postcondition of `dsp_cmx`

`dsp->conf` and the member chains are two views of one relation, and every entry point keeps them
in step: in every reachable state the conferences of `Conf_list` have distinct addresses below the
allocator, and a channel's `conf` points at a conference whose chain holds a node of the channel
(`Cmx.Wf`).  The mixing paths write no pointer and no chain, and `dsp_cmx` moves a channel from one
chain to another together with its `conf`, on every path, the error paths included.

From a well-formed state, a call of `dsp_cmx` that returns 0 leaves the channel in a conference
exactly when its `conf_id` is set and it is active, and then in the conference of its `conf_id`
(`Cmx.Reconciled`); a second call with nothing changed in between returns 0 at once and changes
nothing.

* `Cmx.Wf.of_write`: the invariant after a channel is written and its conference is rewritten;
* `dspCmx_wf`: `dsp_cmx` keeps the invariant, whatever it returns, and reconciles when it returns 0;
* `Reachable.wf`: every reachable state is well formed;
* `dspCmx_reconciles`: the postcondition of a call that returns 0, and its idempotence.
-/

namespace MisdnDsp

variable {k : Nat}

/-- The registry is well formed. -/
structure Cmx.Wf (s : Cmx k) : Prop where
  /-- every conference was allocated below `heap` -/
  addr_lt : ∀ c ∈ s.confList, c.addr < s.heap
  /-- no two conferences share an address -/
  nodup : (s.confList.map (·.addr)).Nodup
  /-- `dsp->conf` points at a conference whose chain holds a node of the channel -/
  conf_mem : ∀ d a, (s.dsps d).conf = some a →
    ∃ c ∈ s.confList, c.addr = a ∧ ∃ m ∈ c.mlist, m.dsp = d

/-- What `dsp_cmx` establishes for channel `d`: the channel is in a conference exactly when its
`conf_id` is set and it is active, and then in the conference of its `conf_id`. -/
def Cmx.Reconciled (s : Cmx k) (d : Nat) : Prop :=
  ((s.dsps d).conf.isSome ↔ (s.dsps d).confId ≠ 0 ∧ (s.dsps d).bActive = true) ∧
    ∀ a, (s.dsps d).conf = some a → ∃ c, s.confAt a = some c ∧ c.id = (s.dsps d).confId

namespace Cmx

/-! ### Writes that keep the invariant -/

/-- The addresses and chains of the conferences. -/
def chains (s : Cmx k) : List (Nat × List ConfMember) := s.confList.map fun c => (c.addr, c.mlist)

theorem Wf.eq_of_addr {s : Cmx k} (h : s.Wf) {c c' : Conference k} (hc : c ∈ s.confList)
    (hc' : c' ∈ s.confList) (ha : c.addr = c'.addr) : c = c' :=
  List.inj_on_of_nodup_map h.nodup hc hc' ha

theorem Wf.confAt_eq {s : Cmx k} (h : s.Wf) {c : Conference k} (hc : c ∈ s.confList) :
    s.confAt c.addr = some c := by
  obtain ⟨c', hc'⟩ := Option.isSome_iff_exists.1
    (List.find?_isSome.2 ⟨c, hc, by simp⟩ : (s.confList.find? (·.addr == c.addr)).isSome)
  rw [confAt, hc', h.eq_of_addr (List.mem_of_find?_eq_some hc') hc (confAt_addr hc')]

theorem Wf.dspConf_eq_none {s : Cmx k} (h : s.Wf) {d : Nat} (hd : s.dspConf d = none) :
    (s.dsps d).conf = none := by
  cases ha : (s.dsps d).conf with
  | none => rfl
  | some a =>
    obtain ⟨c, hc, rfl, -⟩ := h.conf_mem d a ha
    simp [dspConf, ha, h.confAt_eq hc] at hd

/-- The invariant depends only on the chains, the channels' `conf` and the allocator. -/
theorem Wf.of_chains {s s' : Cmx k} (h : s.Wf) (hc : s'.chains = s.chains)
    (hd : ∀ d, (s'.dsps d).conf = (s.dsps d).conf) (hh : s.heap ≤ s'.heap) : s'.Wf := by
  have mem : ∀ {t : Cmx k} {a ml}, (a, ml) ∈ t.chains ↔ ∃ c ∈ t.confList, c.addr = a ∧ c.mlist = ml :=
    by simp [chains]
  refine ⟨fun c' hc' => ?_, ?_, fun d a ha => ?_⟩
  · obtain ⟨c, hc, ha, -⟩ := mem.1 (hc ▸ mem.2 ⟨c', hc', rfl, rfl⟩)
    exact ha ▸ Nat.lt_of_lt_of_le (h.addr_lt c hc) hh
  · have e : ∀ t : Cmx k, t.confList.map (·.addr) = t.chains.map Prod.fst := by simp [chains]
    rw [e, hc, ← e]; exact h.nodup
  · obtain ⟨c, hc', rfl, hm⟩ := h.conf_mem d a (hd d ▸ ha)
    obtain ⟨c', hc'', ha', hm'⟩ := mem.1 (hc ▸ mem.2 ⟨c, hc', rfl, rfl⟩)
    exact ⟨c', hc'', ha', hm' ▸ hm⟩

theorem Wf.ite {P : Prop} [Decidable P] {a b : Cmx k} (ha : a.Wf) (hb : b.Wf) :
    (if P then a else b).Wf := by
  split <;> assumption

theorem Wf.setDsp {s : Cmx k} (h : s.Wf) {d : Nat} {x : Dsp k} (hx : x.conf = (s.dsps d).conf) :
    (s.setDsp d x).Wf :=
  h.of_chains rfl (fun e => by by_cases he : e = d <;> simp [he, hx]) le_rfl

/-- Rewriting a conference without touching its address or chain. -/
theorem Wf.setConf {s : Cmx k} (h : s.Wf) {c c' : Conference k} (hc : c ∈ s.confList)
    (ha : c'.addr = c.addr) (hm : c'.mlist = c.mlist) : (s.setConf c.addr c').Wf := by
  refine h.of_chains ?_ (fun _ => rfl) le_rfl
  simp only [chains, setConf_confList, List.map_map]
  refine List.map_congr_left fun x hx => ?_
  by_cases hxa : x.addr = c.addr
  · simp [hxa, ha, hm, h.eq_of_addr hx hc hxa]
  · simp [hxa]

/-- Writing channel `d` and rewriting its conference `c` at the same address: the invariant holds
again if the new chain keeps the nodes of the other channels, and the channel points only into a
conference whose chain holds a node of it. -/
theorem Wf.of_write {s s' : Cmx k} (h : s.Wf) {c c' : Conference k} {d : Nat}
    (hc : c ∈ s.confList) (hlist : s'.confList = (s.setConf c.addr c').confList)
    (ha : c'.addr = c.addr) (hheap : s.heap ≤ s'.heap)
    (hdsps : ∀ e, e ≠ d → s'.dsps e = s.dsps e)
    (hkeep : ∀ m ∈ c.mlist, m.dsp ≠ d → m ∈ c'.mlist)
    (hd : ∀ a, (s'.dsps d).conf = some a → a = c.addr ∧ ∃ m ∈ c'.mlist, m.dsp = d) : s'.Wf := by
  have himg : ∀ x ∈ s.confList, (if x.addr = c.addr then c' else x) ∈ s'.confList := fun x hx => by
    rw [hlist, setConf_confList]; exact List.mem_map_of_mem _ hx
  have haddr : ∀ x : Conference k, (if x.addr = c.addr then c' else x).addr = x.addr := fun x => by
    split
    · exact ha.trans (‹x.addr = c.addr›).symm
    · rfl
  refine ⟨fun x' hx' => ?_, ?_, fun e a he => ?_⟩
  · rw [hlist, setConf_confList, List.mem_map] at hx'
    obtain ⟨x, hx, rfl⟩ := hx'
    rw [haddr]; exact Nat.lt_of_lt_of_le (h.addr_lt x hx) hheap
  · rw [hlist, setConf_confList, List.map_map]
    convert h.nodup using 1
    exact List.map_congr_left fun x _ => haddr x
  · by_cases hed : e = d
    · subst hed
      obtain ⟨rfl, hm⟩ := hd a he
      exact ⟨c', by simpa using himg c hc, ha, hm⟩
    obtain ⟨x, hx, rfl, m, hm, hmd⟩ := h.conf_mem e a (hdsps e hed ▸ he)
    refine ⟨_, himg x hx, haddr x, ?_⟩
    by_cases hxa : x.addr = c.addr
    · rw [if_pos hxa]
      exact ⟨m, hkeep m (h.eq_of_addr hx hc hxa ▸ hm) (hmd ▸ hed), hmd⟩
    · rw [if_neg hxa]; exact ⟨m, hm, hmd⟩

end Cmx

/-! ### The mixing paths -/

theorem dspCmxReceive_wf (tab : AudioTables) {s : Cmx k} (h : s.Wf) (d : Nat) (data : List UInt8) :
    (dspCmxReceive tab s d data).Wf := by
  have hr : (raiseLargest (s.dsps d) data.length).conf = (s.dsps d).conf := by rw [raiseLargest_eq]
  unfold dspCmxReceive
  dsimp only
  split
  · exact h
  split
  · exact h.setDsp hr
  split
  · exact Cmx.Wf.ite (h.setDsp hr) (h.setDsp hr)
  · rename_i c hc
    refine Cmx.Wf.ite ?_ ?_ <;>
      refine Cmx.Wf.setDsp (Cmx.Wf.setConf h (Cmx.dspConf_mem hc) ?_ ?_) ?_ <;> first | rfl | exact hr

theorem dspCmxSend_wf (tab : AudioTables) (toneCopy : Nat → List UInt8) {s : Cmx k} (h : s.Wf)
    (d len : Nat) : (dspCmxSend tab toneCopy s d len).2.Wf := by
  obtain ⟨_, _, _, e⟩ := dspCmxSend_state tab toneCopy s d len
  exact e ▸ h.setDsp rfl

theorem dspCmxTransmit_conf (dsp : Dsp k) (data : List UInt8) :
    (dspCmxTransmit dsp data).conf = dsp.conf := by
  unfold dspCmxTransmit; split <;> rfl

/-! ### The list primitives of `dsp_cmx` -/

theorem dspCmxSearchConf_some {s : Cmx k} {id : Nat} {c : Conference k}
    (h : dspCmxSearchConf s id = some c) : c ∈ s.confList ∧ c.id = id := by
  unfold dspCmxSearchConf at h
  split at h
  · cases h
  · exact ⟨List.mem_of_find?_eq_some h, by simpa using List.find?_some h⟩

theorem dspCmxNewConf_wf {ok : Bool} {s s₁ : Cmx k} {id : Nat} {c : Conference k} (h : s.Wf)
    (hn : dspCmxNewConf ok s id = some (s₁, c)) :
    s₁.Wf ∧ c ∈ s₁.confList ∧ c.id = id ∧ s₁.dsps = s.dsps := by
  unfold dspCmxNewConf at hn
  split_ifs at hn
  cases hn
  refine ⟨⟨fun x hx => ?_, ?_, fun d a ha => ?_⟩, by simp, rfl, rfl⟩
  · simp only [List.mem_append, List.mem_singleton] at hx
    rcases hx with hx | rfl
    · exact Nat.lt_succ_of_lt (h.addr_lt x hx)
    · exact Nat.lt_succ_self _
  · rw [List.map_append, List.nodup_append]
    refine ⟨h.nodup, List.nodup_singleton _, fun a ha hb => ?_⟩
    obtain ⟨x, hx, rfl⟩ := List.mem_map.1 ha
    simp only [List.map_cons, List.map_nil, List.mem_singleton] at hb
    exact (h.addr_lt x hx).ne hb
  · obtain ⟨x, hx, hxa⟩ := h.conf_mem d a ha
    exact ⟨x, List.mem_append_left _ hx, hxa⟩

theorem dspCmxDelConf_wf {s s₁ : Cmx k} {c : Conference k} (h : s.Wf) (hc : c ∈ s.confList)
    (hd : dspCmxDelConf s c = .ok s₁) : s₁.Wf ∧ s₁.dsps = s.dsps := by
  unfold dspCmxDelConf at hd
  split_ifs at hd with hm
  cases hd
  refine ⟨⟨fun x hx => h.addr_lt x (List.mem_filter.1 hx).1,
    ((List.filter_sublist _).map _).nodup h.nodup, fun d a ha => ?_⟩, rfl⟩
  obtain ⟨x, hx, rfl, m, hmx, hmd⟩ := h.conf_mem d a ha
  refine ⟨x, List.mem_filter.2 ⟨hx, ?_⟩, rfl, m, hmx, hmd⟩
  by_contra hxc
  have := h.eq_of_addr hx hc (by simpa using hxc)
  simp [this, not_not.1 hm] at hmx

/-- A node joins the chain of `c`, and the channel points at `c`. -/
theorem dspCmxAddConfMember_wf {tab : AudioTables} {ok : Bool} {s s₂ : Cmx k} {d : Nat}
    {c : Conference k} (h : s.Wf) (hc : c ∈ s.confList)
    (ha : dspCmxAddConfMember tab ok s d c = .ok s₂) :
    s₂.Wf ∧ (s.dsps d).conf = none ∧ (s₂.dsps d).conf = some c.addr ∧
      (s₂.dsps d).confId = (s.dsps d).confId ∧ (s₂.dsps d).bActive = (s.dsps d).bActive ∧
      ∃ c' ∈ s₂.confList, c'.addr = c.addr ∧ c'.id = c.id := by
  unfold dspCmxAddConfMember at ha
  dsimp only at ha
  by_cases h₁ : (s.dsps d).member.isSome
  · simp [h₁] at ha
  by_cases h₂ : (s.dsps d).conf.isSome
  · simp [h₁, h₂] at ha
  by_cases h₃ : ok
  swap
  · simp [h₁, h₂, h₃] at ha
  rw [if_neg h₁, if_neg h₂, if_neg (by simpa using h₃), Except.ok.injEq] at ha
  subst ha
  refine ⟨h.of_write (d := d) hc rfl rfl (Nat.le_succ _) (fun e he => by simp [he])
    (fun m hm _ => List.mem_append_left _ hm)
    (fun a ha => by simp at ha; exact ⟨ha.symm, ⟨s.heap, d⟩, by simp, rfl⟩),
    by simpa using h₂, by simp, by simp, by simp, _, List.mem_map_of_mem _ hc, by simp, by simp⟩

/-- The node of the channel leaves the chain of its conference, and the channel points nowhere. -/
theorem dspCmxDelConfMember_wf {s s₁ : Cmx k} {d : Nat} {c : Conference k} (h : s.Wf)
    (hc : s.dspConf d = some c) (hd : dspCmxDelConfMember s d = .ok s₁) :
    s₁.Wf ∧ (s₁.dsps d).conf = none ∧ (s₁.dsps d).confId = (s.dsps d).confId ∧
      (s₁.dsps d).bActive = (s.dsps d).bActive := by
  unfold dspCmxDelConfMember at hd
  rw [hc] at hd
  dsimp only at hd
  split_ifs at hd
  split at hd
  · cases hd
  rename_i m hfm
  cases hd
  have hmd : m.dsp = d := by simpa using List.find?_some hfm
  refine ⟨h.of_write (d := d) (Cmx.dspConf_mem hc) rfl rfl le_rfl (fun e he => by simp [he])
    (fun m' hm' hne => (List.mem_erase_of_ne (by rintro rfl; exact hne hmd)).2 hm')
    (fun a ha => by simp at ha), by simp, by simp, by simp⟩

/-! ### The hardware bookkeeping -/

/-- `c'` is `c` with another solution or chip: the same address, id and chain. -/
def Conference.SameChain (c c' : Conference k) : Prop :=
  c'.addr = c.addr ∧ c'.id = c.id ∧ c'.mlist = c.mlist

/-- A stage of the bookkeeping from `c`: it fails with `-EINVAL`, or gives a conference with the
chain of `c`. -/
def Conference.Stage (c : Conference k) : Except Int (Conference k × List Directive) → Prop
  | .ok cd => c.SameChain cd.1
  | .error e => e = -einval

theorem Conference.SameChain.trans {c₁ c₂ c₃ : Conference k} (h₁ : c₁.SameChain c₂)
    (h₂ : c₂.SameChain c₃) : c₁.SameChain c₃ :=
  ⟨h₂.1.trans h₁.1, h₂.2.1.trans h₁.2.1, h₂.2.2.trans h₁.2.2⟩

theorem Conference.Stage.ok {c : Conference k} {x : Except Int (Conference k × List Directive)}
    (hx : c.Stage x) {cd : Conference k × List Directive} (h : x = .ok cd) : c.SameChain cd.1 := by
  subst h; exact hx

theorem Conference.Stage.error {c : Conference k} {x : Except Int (Conference k × List Directive)}
    (hx : c.Stage x) {e : Int} (h : x = .error e) : e = -einval := by
  subst h; exact hx

theorem hwCrossRelease_stage (pair : Option (ConfMember × ConfMember)) (c : Conference k)
    (ds : List Directive) : c.Stage (hwCrossRelease pair c ds) := by
  unfold hwCrossRelease
  split
  · rfl
  · exact ⟨rfl, rfl, rfl⟩

theorem hwCrossConnect_stage (hfcId : Nat) (c : Conference k) (ds : List Directive) :
    c.Stage (hwCrossConnect hfcId c ds) := by
  unfold hwCrossConnect
  split
  · exact ⟨rfl, rfl, rfl⟩
  · rfl

/-- Lines 557-601 keep the chain, and fail only with `-EINVAL`. -/
theorem removeHw_spec (d hfc : Nat) (pair : Option (ConfMember × ConfMember)) (old new : Int)
    (c : Conference k) :
    c.SameChain (removeHw d hfc pair old new c).1 ∧
      ∀ e, (removeHw d hfc pair old new c).2.2 = some e → e = -einval := by
  refine ⟨removeHw_rel _ (fun _ => ⟨rfl, rfl, rfl⟩) (fun h₁ h₂ => h₁.trans h₂)
    (fun _ _ => ⟨rfl, rfl, rfl⟩) (fun h => (hwCrossRelease_stage _ _ _).ok h)
    (fun h => (hwCrossConnect_stage _ _ _).ok h) d hfc pair old new c, fun e he => ?_⟩
  simp only [removeHw] at he
  split at he
  · rename_i he'
    cases he
    split at he'
    · exact (hwCrossRelease_stage _ _ _).error he'
    · cases he'
  · split at he
    · rename_i he'
      cases he
      split at he'
      · exact (hwCrossConnect_stage _ _ _).error he'
      · cases he'
    · cases he

/-- Lines 658-713 keep the chain. -/
theorem addHw_sameChain (hfc : Nat) (pair : Option (ConfMember × ConfMember)) (old new : Int)
    (c : Conference k) : c.SameChain (addHw hfc pair old new c).1 :=
  addHw_rel _ (fun _ => ⟨rfl, rfl, rfl⟩) (fun h₁ h₂ => h₁.trans h₂) (fun _ _ => ⟨rfl, rfl, rfl⟩)
    (fun h => (hwCrossRelease_stage _ _ _).ok h) (fun h => (hwCrossConnect_stage _ _ _).ok h)
    hfc pair old new c fun _ _ _ h => h

/-! ### The blocks of `dsp_cmx` -/

theorem dspCmxDelConfMember_error {s : Cmx k} {d : Nat} {e : Int}
    (h : dspCmxDelConfMember s d = .error e) : e = -einval := by
  unfold dspCmxDelConfMember at h
  split at h
  · exact (Except.error.inj h).symm
  split_ifs at h
  · exact (Except.error.inj h).symm
  split at h
  · exact (Except.error.inj h).symm
  · cases h

theorem dspCmxDelConf_error {s : Cmx k} {c : Conference k} {e : Int}
    (h : dspCmxDelConf s c = .error e) : e = -einval := by
  unfold dspCmxDelConf at h
  split_ifs at h
  exact (Except.error.inj h).symm

/-- Rewriting the conference at the address of `c₁` with the same chain. -/
theorem Cmx.Wf.setConf_of_confAt {s : Cmx k} (h : s.Wf) {a : Nat} {c₁ c' : Conference k}
    (hc : s.confAt a = some c₁) (hs : c₁.SameChain c') : (s.setConf a c').Wf := by
  rw [← Cmx.confAt_addr hc]
  exact h.setConf (Cmx.confAt_mem hc) hs.1 hs.2.2

/-- Lines 537-608 keep the invariant; when they fall through to the add block the channel is in no
conference, and they return only `-EINVAL`. -/
theorem removeFromConf_wf {fuel : Nat} {s : Cmx k} (h : s.Wf) {d : Nat} {c : Conference k}
    (hc : s.dspConf d = some c) {s' : Cmx k} {ds : List Directive} {r : Option Int}
    (hr : removeFromConf fuel s d c = some (s', ds, r)) :
    s'.Wf ∧ (s'.dsps d).confId = (s.dsps d).confId ∧ (s'.dsps d).bActive = (s.dsps d).bActive ∧
      (r = none → (s'.dsps d).conf = none) ∧ ∀ e, r = some e → e = -einval := by
  unfold removeFromConf at hr
  split at hr
  · rename_i e he
    cases hr
    exact ⟨h, rfl, rfl, nofun, fun _ he' => (Option.some.inj he') ▸ dspCmxDelConfMember_error he⟩
  rename_i s₁ h₁
  obtain ⟨hw₁, hn₁, hid₁, hb₁⟩ := dspCmxDelConfMember_wf h hc h₁
  split at hr
  · cases hr
  rename_i c₁ hc₁
  split at hr
  · cases hr
  rename_i new _
  set R := removeHw d (s.dsps d).hfcId (twoMembers c.mlist) c.solution new c₁
  obtain ⟨hsame, herr⟩ := removeHw_spec d (s.dsps d).hfcId (twoMembers c.mlist) c.solution new c₁
  have hw₂ := hw₁.setConf_of_confAt hc₁ hsame
  dsimp only at hr
  split at hr
  · rename_i e he
    cases hr
    exact ⟨hw₂, by simpa using hid₁, by simpa using hb₁, nofun, fun _ he' => (Option.some.inj he') ▸ herr e he⟩
  split_ifs at hr with hm
  · split at hr
    · rename_i e he
      cases hr
      exact ⟨hw₂, by simpa using hid₁, by simpa using hb₁, nofun,
        fun _ he' => (Option.some.inj he') ▸ dspCmxDelConf_error he⟩
    · rename_i s₃ h₃
      cases hr
      have hmem : R.1 ∈ (s₁.setConf c.addr R.1).confList := by
        rw [Cmx.setConf_confList, List.mem_map]
        exact ⟨c₁, Cmx.confAt_mem hc₁, if_pos (Cmx.confAt_addr hc₁)⟩
      obtain ⟨hw₃, hd₃⟩ := dspCmxDelConf_wf hw₂ hmem h₃
      refine ⟨hw₃, ?_, ?_, fun _ => ?_, nofun⟩ <;> simpa [hd₃] using ‹_›
  · cases hr
    exact ⟨hw₂, by simpa using hid₁, by simpa using hb₁, fun _ => by simpa using hn₁, nofun⟩

theorem dspCmxAddConfMember_error {tab : AudioTables} {ok : Bool} {s : Cmx k} {d : Nat}
    {c : Conference k} {e : Int} (h : dspCmxAddConfMember tab ok s d c = .error e) : e ≠ 0 := by
  unfold dspCmxAddConfMember at h
  dsimp only at h
  split_ifs at h <;> cases h <;> simp [einval, enomem]

theorem Cmx.reconciled_of_none {s : Cmx k} {d : Nat} (hn : (s.dsps d).conf = none)
    (hoff : ¬((s.dsps d).confId ≠ 0 ∧ (s.dsps d).bActive = true)) : s.Reconciled d :=
  ⟨by simp [hn, hoff], fun a ha => by simp [hn] at ha⟩

theorem Cmx.reconciled_of_mem {s : Cmx k} (h : s.Wf) {d : Nat} {c : Conference k}
    (hc : c ∈ s.confList) (hconf : (s.dsps d).conf = some c.addr) (hid : c.id = (s.dsps d).confId)
    (hon : (s.dsps d).confId ≠ 0 ∧ (s.dsps d).bActive = true) : s.Reconciled d :=
  ⟨by simp [hconf, hon], fun a ha => ⟨c, by rw [hconf] at ha; rw [← Option.some.inj ha, h.confAt_eq hc], hid⟩⟩

/-- Lines 611-717 keep the invariant, and reconcile a channel that was in no conference when they
return 0. -/
theorem addToConf_wf {tab : AudioTables} {fuel : Nat} {ok : Vmalloc} {s : Cmx k} (h : s.Wf)
    {ds : List Directive} {d : Nat} {s' : Cmx k} {ds' : List Directive} {r : Int}
    (hr : addToConf tab fuel ok s ds d = some (s', ds', r)) :
    s'.Wf ∧ (s'.dsps d).confId = (s.dsps d).confId ∧ (s'.dsps d).bActive = (s.dsps d).bActive ∧
      ((s.dsps d).conf = none → r = 0 → s'.Reconciled d) := by
  unfold addToConf at hr
  dsimp only at hr
  by_cases h₀ : (s.dsps d).confId = 0 ∨ (s.dsps d).bActive = false
  · rw [if_pos h₀] at hr
    cases hr
    exact ⟨h, rfl, rfl, fun hn _ => Cmx.reconciled_of_none hn (by simpa [or_iff_not_imp_left] using h₀)⟩
  rw [if_neg h₀] at hr
  have hon : (s.dsps d).confId ≠ 0 ∧ (s.dsps d).bActive = true := by simpa [not_or] using h₀
  split at hr
  · cases hr
    exact ⟨h, rfl, rfl, fun _ h0 => absurd h0 (by simp [einval])⟩
  rename_i s₁ c hf
  -- the conference of `conf_id`, found or created
  obtain ⟨hw₁, hc₁, hid, hd₁⟩ : s₁.Wf ∧ c ∈ s₁.confList ∧ c.id = (s.dsps d).confId ∧ s₁.dsps = s.dsps := by
    split at hf
    · cases hf
      exact ⟨h, (dspCmxSearchConf_some ‹_›).1, (dspCmxSearchConf_some ‹_›).2, rfl⟩
    · exact dspCmxNewConf_wf h hf
  have hs₁ : s₁.dsps d = s.dsps d := by rw [hd₁]
  split at hr
  · cases hr
    exact ⟨hw₁, by rw [hs₁], by rw [hs₁], fun _ h0 => (dspCmxAddConfMember_error ‹_› h0).elim⟩
  rename_i s₂ h₂
  obtain ⟨hw₂, -, hconf₂, hid₂, hb₂, c', hc', hca', hcid'⟩ := dspCmxAddConfMember_wf hw₁ hc₁ h₂
  rw [hs₁] at hid₂ hb₂
  have hon₂ : (s₂.dsps d).confId ≠ 0 ∧ (s₂.dsps d).bActive = true := by rw [hid₂, hb₂]; exact hon
  split_ifs at hr
  · cases hr
    exact ⟨hw₂, hid₂, hb₂, fun _ _ => Cmx.reconciled_of_mem hw₂ hc' (hca' ▸ hconf₂)
      (by rw [hcid', hid, hid₂]) hon₂⟩
  split at hr
  · cases hr
  rename_i c₂ hc₂
  split at hr
  · cases hr
  rename_i new _
  cases hr
  have e₂ : c₂ = c' := Option.some.inj (hc₂.symm.trans (hca' ▸ hw₂.confAt_eq hc'))
  subst e₂
  set R := addHw (s.dsps d).hfcId (twoMembers c.mlist) c₂.solution new c₂
  have hsame := addHw_sameChain (s.dsps d).hfcId (twoMembers c.mlist) c₂.solution new c₂
  have hw₃ := hw₂.setConf_of_confAt hc₂ hsame
  have hmem : R.1 ∈ (s₂.setConf c.addr R.1).confList := by
    rw [Cmx.setConf_confList, List.mem_map]
    exact ⟨c₂, hc', if_pos hca'⟩
  refine ⟨hw₃, hid₂, hb₂, fun _ _ => Cmx.reconciled_of_mem hw₃ hmem ?_ ?_ hon₂⟩
  · rw [Cmx.setConf_dsps, hconf₂, hsame.1, hca']
  · rw [Cmx.setConf_dsps, hsame.2.1, hcid', hid, hid₂]

theorem Cmx.dspConf_conf {s : Cmx k} {d : Nat} {c : Conference k} (h : s.dspConf d = some c) :
    (s.dsps d).conf = some c.addr := by
  simp only [Cmx.dspConf, Option.bind_eq_some] at h
  obtain ⟨a, ha, hc⟩ := h
  rw [ha, Cmx.confAt_addr hc]

/-! ### `dsp_cmx` -/

/-- `dsp_cmx` keeps the invariant and the channel's `conf_id` and `b_active`, whatever it returns,
and reconciles the channel when it returns 0. -/
theorem dspCmx_wf {tab : AudioTables} {fuel : Nat} {ok : Vmalloc} {s : Cmx k} (h : s.Wf) {d : Nat}
    {s' : Cmx k} {ds : List Directive} {r : Int} (hr : dspCmx tab fuel ok s d = some (s', ds, r)) :
    s'.Wf ∧ (s'.dsps d).confId = (s.dsps d).confId ∧ (s'.dsps d).bActive = (s.dsps d).bActive ∧
      (r = 0 → s'.Reconciled d) := by
  unfold dspCmx at hr
  dsimp only at hr
  split at hr
  · rename_i hc
    have hn := h.dspConf_eq_none hc
    split_ifs at hr with h0
    · cases hr
      exact ⟨h, rfl, rfl, fun _ => Cmx.reconciled_of_none hn (by simp [h0])⟩
    · obtain ⟨hw, hid, hb, hpost⟩ := addToConf_wf h hr
      exact ⟨hw, hid, hb, hpost hn⟩
  · rename_i c hc
    split_ifs at hr with h0
    · cases hr
      exact ⟨h, rfl, rfl, fun _ => Cmx.reconciled_of_mem h (Cmx.dspConf_mem hc) (Cmx.dspConf_conf hc)
        h0.2.2.symm ⟨h0.1, h0.2.1⟩⟩
    split at hr
    · cases hr
    · rename_i s₁ ds₁ e he
      cases hr
      obtain ⟨hw, hid, hb, -, herr⟩ := removeFromConf_wf h hc he
      exact ⟨hw, hid, hb, fun h0 => absurd (herr _ rfl) (by rw [h0]; decide)⟩
    · rename_i s₁ ds₁ he
      obtain ⟨hw₁, hid₁, hb₁, hn₁, -⟩ := removeFromConf_wf h hc he
      obtain ⟨hw, hid, hb, hpost⟩ := addToConf_wf hw₁ hr
      exact ⟨hw, hid.trans hid₁, hb.trans hb₁, hpost (hn₁ rfl)⟩

/-- From a reconciled channel, `dsp_cmx` returns 0 at once and changes nothing. -/
theorem dspCmx_of_reconciled (tab : AudioTables) (fuel : Nat) (ok : Vmalloc) {s : Cmx k} {d : Nat}
    (h : s.Reconciled d) : dspCmx tab fuel ok s d = some (s, [], 0) := by
  obtain ⟨hiff, hid⟩ := h
  unfold dspCmx
  cases hc : (s.dsps d).conf with
  | none =>
    have hoff : ¬((s.dsps d).confId ≠ 0 ∧ (s.dsps d).bActive = true) := by simpa [hc] using hiff
    have hn : s.dspConf d = none := by simp [Cmx.dspConf, hc]
    by_cases h0 : (s.dsps d).confId = 0
    · simp [hn, h0]
    · have hb : (s.dsps d).bActive = false := by simpa [h0] using hoff
      simp [hn, h0, addToConf, hb]
  | some a =>
    obtain ⟨c, hca, hcid⟩ := hid a hc
    have hon := hiff.1 (by simp [hc])
    have hs : s.dspConf d = some c := by simp [Cmx.dspConf, hc, hca]
    simp [hs, hon, hcid]

/-! ### Every reachable state -/

theorem step_wf {tab : AudioTables} {toneCopy : Nat → List UInt8} {fuel : Nat} {s s' : Cmx k}
    {op : Op} {ds : List Directive} {r : Reply} (h : s.Wf)
    (hs : step tab toneCopy fuel s op = some (s', ds, r)) : s'.Wf := by
  cases op with
  | receive d data =>
    cases hs
    exact dspCmxReceive_wf tab h d data
  | send d len =>
    cases hs
    exact dspCmxSend_wf tab toneCopy h d len
  | transmit d data =>
    cases hs
    exact h.setDsp (dspCmxTransmit_conf _ _)
  | cmx d confId bActive ok =>
    simp only [step, Option.map_eq_some'] at hs
    obtain ⟨⟨s₁, ds₁, r₁⟩, hr, he⟩ := hs
    cases he
    exact (dspCmx_wf (s := s.setDsp d { s.dsps d with confId := confId, bActive := bActive })
      (h.setDsp rfl) hr).1

theorem Cmx.Initial.wf {s : Cmx k} (h : s.Initial) : s.Wf :=
  ⟨by simp [h.1], by simp [h.1], fun d a ha => by simp [(h.2 d).1] at ha⟩

theorem Trace.wf {tab : AudioTables} {toneCopy : Nat → List UInt8} {s₀ s : Cmx k} {ops : List Op}
    {ds : List Directive} (h₀ : s₀.Wf) (ht : Trace tab toneCopy s₀ ops ds s) : s.Wf := by
  induction ht with
  | nil => exact h₀
  | snoc _ hs ih => exact step_wf ih hs

/-- Every reachable state is well formed. -/
theorem Reachable.wf {tab : AudioTables} {toneCopy : Nat → List UInt8} {s : Cmx k}
    (h : Reachable tab toneCopy s) : s.Wf := by
  obtain ⟨s₀, ops, ds, hi, ht⟩ := h
  exact ht.wf hi.wf

/-- In every reachable state, after the layer above sets channel `d`'s `conf_id` and `b_active`: when
`dsp_cmx` returns 0, the channel keeps the two fields, is in a conference exactly when the id is set
and it is active, and then in the conference of that id; and a second `dsp_cmx` returns 0 at once,
issues nothing and changes nothing. -/
theorem dspCmx_reconciles {tab : AudioTables} {toneCopy : Nat → List UInt8} {s : Cmx k}
    (hs : Reachable tab toneCopy s) (d confId : Nat) (bActive : Bool) (fuel : Nat) (ok : Vmalloc)
    {s' : Cmx k} {ds : List Directive}
    (h : dspCmx tab fuel ok (s.setDsp d { s.dsps d with confId := confId, bActive := bActive }) d =
      some (s', ds, 0)) :
    (s'.dsps d).confId = confId ∧ (s'.dsps d).bActive = bActive ∧
      ((s'.dsps d).conf.isSome ↔ confId ≠ 0 ∧ bActive = true) ∧
      (∀ a, (s'.dsps d).conf = some a → ∃ c, s'.confAt a = some c ∧ c.id = confId) ∧
      ∀ fuel' ok', dspCmx tab fuel' ok' s' d = some (s', [], 0) := by
  obtain ⟨-, hid, hb, hpost⟩ := dspCmx_wf
    (s := s.setDsp d { s.dsps d with confId := confId, bActive := bActive }) (hs.wf.setDsp rfl) h
  have hrec := hpost rfl
  simp only [Cmx.setDsp_dsps, ite_true] at hid hb
  refine ⟨hid, hb, ?_, ?_, fun fuel' ok' => dspCmx_of_reconciled tab fuel' ok' hrec⟩
  · rw [← hid, ← hb]; exact hrec.1
  · rw [← hid]; exact hrec.2

/-- What a fresh registry holds after channel 0 asks for conference 1: the conference is created
and the channel joins it. -/
def joinedOne : Cmx 13 :=
  ((dspCmx tab₀ 0 ⟨true, true⟩ ((Cmx.zero fun _ => 0 : Cmx 13).setDsp 0
    { (Cmx.zero fun _ => 0 : Cmx 13).dsps 0 with confId := 1, bActive := true }) 0).map (·.1)).getD
    (Cmx.zero fun _ => 0)

/-- Channel 0 of a fresh registry joins conference 1, which the call creates. -/
theorem dspCmx_reconciles_joinedOne :
    Reachable tab₀ noTone (Cmx.zero fun _ => 0 : Cmx 13) ∧
      dspCmx tab₀ 0 ⟨true, true⟩ ((Cmx.zero fun _ => 0 : Cmx 13).setDsp 0
        { (Cmx.zero fun _ => 0 : Cmx 13).dsps 0 with confId := 1, bActive := true }) 0 =
        some (joinedOne, [], 0) ∧
      ((joinedOne.dsps 0).confId = 1 ∧ (joinedOne.dsps 0).bActive = true ∧
        ((joinedOne.dsps 0).conf.isSome ↔ 1 ≠ 0 ∧ true = true) ∧
        (∀ a, (joinedOne.dsps 0).conf = some a → ∃ c, joinedOne.confAt a = some c ∧ c.id = 1) ∧
        ∀ fuel' ok', dspCmx tab₀ fuel' ok' joinedOne 0 = some (joinedOne, [], 0)) :=
  have hs : Reachable tab₀ noTone (Cmx.zero fun _ => 0 : Cmx 13) :=
    ⟨_, [], [], Cmx.zero_initial _, Trace.nil⟩
  ⟨hs, rfl, dspCmx_reconciles hs 0 1 true 0 ⟨true, true⟩ rfl⟩

end MisdnDsp
